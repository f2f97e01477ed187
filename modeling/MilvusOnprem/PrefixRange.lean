import MilvusOnprem.LexRange
import MilvusOnprem.TopologyWatcher

/-!
# The range of a prefix

etcd knows no prefixes. It orders its keys by their bytes and answers for a half-open
range of them, and the client asks for the range from the prefix to the prefix with the
next last character. The keys of this range are those that start with the prefix.
-/
namespace MilvusOnprem.PrefixRange

open PythonText EtcdClient LexRange
open MilvusOnprem.Topology (TOPOLOGY_PREFIX)
open TopologyWatcher (Event)

/-- The bytes of a text. -/
def encode (s : String) : List UInt8 := s.toList.flatMap String.utf8EncodeChar

/-- `chr(ord(c) + 1)`; behind the last code point it raises, and the surrogates cannot be
encoded. -/
def nextChar (c : Char) : Option Char :=
  if (c.toNat + 1).isValidChar then some (Char.ofNat (c.toNat + 1)) else none

/-- `_prefix_end` -/
def prefixEnd (pre : String) : Option String :=
  match pre.toList.getLast? with
  | none => some ""
  | some c => (nextChar c).map fun d => String.ofList (pre.toList.dropLast ++ [d])

/-- The two fields of a range request, without their base64. -/
structure Range where
  key : List UInt8
  rangeEnd : List UInt8
deriving DecidableEq

/-- The request for a prefix in `get_prefix` and `watch_prefix`. -/
def prefixRange (pre : String) : Option Range := (prefixEnd pre).map fun e => ⟨encode pre, encode e⟩

/-- What etcd has in a range; without an end it is the one key. -/
def Range.has (r : Range) (key : List UInt8) : Bool :=
  if r.rangeEnd = [] then key = r.key else r.key ≤ key && key < r.rangeEnd

/-- `get_prefix` -/
def getPrefix (pre : String) (kv : OrderedMap String String) : Option (List (String × String)) :=
  (prefixRange pre).map fun r => kv.entries.filter fun e => r.has (encode e.1)

def eventKey : Event → String
  | .put key _ => key
  | .delete key => key

/-- `watch_prefix`: what it yields of the events of a store. -/
def watchPrefix (pre : String) (events : List Event) : Option (List Event) :=
  (prefixRange pre).map fun r => events.filter fun ev => r.has (encode (eventKey ev))

/-! ## Bytes -/

/-- The bytes of a character tell where it ends. -/
theorem utf8_prefixFree : PrefixFree String.utf8EncodeChar where
  ne_nil a := String.utf8EncodeChar_ne_nil
  eq_of_prefix a b := by
    rintro ⟨rest, hrest⟩
    have ha := @ByteArray.utf8DecodeChar?_utf8EncodeChar_append rest.toByteArray a
    have hb := @ByteArray.utf8DecodeChar?_utf8EncodeChar_append ByteArray.empty b
    rw [← hrest, List.toByteArray_append, ByteArray.append_empty, ha] at hb
    exact Option.some.inj hb

theorem encode_prefix_iff (pre key : String) : encode pre <+: encode key ↔ startsWith key pre = true := by
  rw [encode, encode, flatMap_prefix_iff utf8_prefixFree, startsWith, List.isPrefixOf_iff_prefix]

theorem utf8_ascii {c : Char} (h : c.toNat < 128) : String.utf8EncodeChar c = [c.toNat.toUInt8] :=
  if_pos (Nat.le_of_lt_succ h)

/-- Next characters of ASCII are next bytes. -/
theorem covBy_ascii {n : ℕ} (h : n + 1 < 128) : n.toUInt8 ⋖ (n + 1).toUInt8 := by
  have hnat : ∀ m, m < 128 → m.toUInt8.toNat = m := fun m hm =>
    UInt8.toNat_ofNat_of_lt (hm.trans (by decide))
  constructor
  · rw [UInt8.lt_iff_toNat_lt, hnat _ (Nat.lt_of_succ_lt h), hnat _ h]
    exact Nat.lt_succ_self n
  · intro b hlow hhigh
    rw [UInt8.lt_iff_toNat_lt, hnat _ (Nat.lt_of_succ_lt h)] at hlow
    rw [UInt8.lt_iff_toNat_lt, hnat _ h] at hhigh
    exact absurd hhigh (Nat.not_lt_of_ge hlow)

/-! ## The range of a prefix -/

section Prefix

variable {pre : String} {c : Char}

theorem nextChar_ascii (h : c.toNat < 0x7f) :
    ∃ d, nextChar c = some d ∧ d.toNat = c.toNat + 1 := by
  have hvalid : (c.toNat + 1).isValidChar := .inl (by omega)
  refine ⟨Char.ofNat (c.toNat + 1), if_pos hvalid, ?_⟩
  rw [Char.ofNat, dif_pos hvalid]
  rfl

/-- The request for a prefix that ends in ASCII. -/
theorem prefixRange_ascii (hlast : pre.toList.getLast? = some c) (h : c.toNat < 0x7f) :
    ∃ bytes b d, b ⋖ d ∧ encode pre = bytes ++ [b] ∧
      prefixRange pre = some ⟨bytes ++ [b], bytes ++ [d]⟩ := by
  obtain ⟨d, hnext, hd⟩ := nextChar_ascii h
  have hpre : pre.toList = pre.toList.dropLast ++ [c] :=
    (List.dropLast_append_getLast? c hlast).symm
  have hend : prefixEnd pre = some (String.ofList (pre.toList.dropLast ++ [d])) := by
    rw [prefixEnd, hlast]
    dsimp only
    rw [hnext, Option.map_some]
  have hbytes : encode pre = pre.toList.dropLast.flatMap String.utf8EncodeChar ++ [c.toNat.toUInt8] := by
    conv_lhs => rw [encode, hpre]
    rw [List.flatMap_append, List.flatMap_singleton, utf8_ascii (by omega)]
  refine ⟨pre.toList.dropLast.flatMap String.utf8EncodeChar, c.toNat.toUInt8, (c.toNat + 1).toUInt8,
    covBy_ascii (by omega), hbytes, ?_⟩
  rw [prefixRange, hend, Option.map_some, hbytes, encode, String.toList_ofList, List.flatMap_append,
    List.flatMap_singleton, utf8_ascii (by omega), hd]

theorem has_iff_prefix {bytes : List UInt8} {b d : UInt8} (h : b ⋖ d) (key : List UInt8) :
    Range.has ⟨bytes ++ [b], bytes ++ [d]⟩ key = true ↔ bytes ++ [b] <+: key := by
  rw [Range.has, if_neg (List.append_ne_nil_of_right_ne_nil _ (List.cons_ne_nil d [])),
    Bool.and_eq_true, decide_eq_true_eq, decide_eq_true_eq]
  exact between_iff_prefix h bytes key

/-- In the range of a prefix are the keys that start with it, so that is what a read of a
prefix and a watch on it see. -/
theorem has_prefixRange_iff (hlast : pre.toList.getLast? = some c) (h : c.toNat < 0x7f) :
    ∃ r, prefixRange pre = some r ∧
      (∀ key : List UInt8, r.has key = true ↔ encode pre <+: key) ∧
      (∀ key : String, r.has (encode key) = true ↔ startsWith key pre = true) ∧
      (∀ kv, getPrefix pre kv = some (withPrefix pre kv)) ∧
      ∀ events, watchPrefix pre events = some (events.filter fun ev => startsWith (eventKey ev) pre) := by
  obtain ⟨bytes, b, d, hcov, hpre, hrange⟩ := prefixRange_ascii hlast h
  have hbytes : ∀ key : List UInt8, Range.has ⟨bytes ++ [b], bytes ++ [d]⟩ key = true ↔ encode pre <+: key :=
    fun key => by rw [hpre, has_iff_prefix hcov]
  have htext : ∀ key : String, Range.has ⟨bytes ++ [b], bytes ++ [d]⟩ (encode key) = startsWith key pre :=
    fun key => Bool.eq_iff_iff.mpr ((hbytes (encode key)).trans (encode_prefix_iff pre key))
  refine ⟨_, hrange, hbytes, fun key => by rw [htext], fun kv => ?_, fun events => ?_⟩
  · rw [getPrefix, hrange, Option.map_some]
    simp only [htext]
    rfl
  · rw [watchPrefix, hrange, Option.map_some]
    simp only [htext]

end Prefix

theorem has_prefixRange_iff_topology :
    ∃ r, prefixRange TOPOLOGY_PREFIX = some r ∧
      ∀ key : String, r.has (encode key) = true ↔ startsWith key TOPOLOGY_PREFIX = true := by
  have hlast : TOPOLOGY_PREFIX.toList.getLast? = some '/' := by decide
  obtain ⟨r, hrange, -, hkeys, -⟩ := has_prefixRange_iff hlast (by decide)
  exact ⟨r, hrange, hkeys⟩

end MilvusOnprem.PrefixRange
