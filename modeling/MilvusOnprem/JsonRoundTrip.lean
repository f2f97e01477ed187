import MilvusOnprem.JsonText
import Mathlib.Data.List.Induction
import Mathlib.Tactic.Ring
import Mathlib.Tactic.Linarith

/-!
# Decoding what was encoded

`loads` inverts both forms of `dumps` on every tree. The induction is over the
tree, with the text that follows the value arbitrary except that it starts, if
at all, with a separator or a closing bracket: that is what ends a number. The
fuel of the decoder is compared with the length of the encoded text, so the
supply of `loads` is enough for every nesting.
-/
namespace MilvusOnprem.JsonText

/-- What may follow a value inside a text written by the encoder. -/
def Stops (rest : List Char) : Prop :=
  ∀ c cs, rest = c :: cs → c = ',' ∨ c = ']' ∨ c = '\x7d'

theorem stops_nil : Stops [] := fun _ _ h => by cases h

theorem stops_cons {c : Char} {cs : List Char} (h : c = ',' ∨ c = ']' ∨ c = '\x7d') :
    Stops (c :: cs) := fun _ _ he => by cases he; exact h

/-! ## Digits -/

theorem digitChar_spec : ∀ d < 10,
    isDigit (digitChar d) = true ∧ digitValue (digitChar d) = d ∧
      (digitChar d = '0' → d = 0) := by decide

theorem digitsValue_append (ds es : List Char) :
    digitsValue (ds ++ es) = digitsValue ds * 10 ^ es.length + digitsValue es := by
  induction es using List.reverseRecOn with
  | nil => simp [digitsValue]
  | append_singleton es e ih =>
      have hsnoc : ∀ fs : List Char, digitsValue (fs ++ [e]) = 10 * digitsValue fs + digitValue e :=
        fun fs => by simp only [digitsValue, List.foldl_append, List.foldl_cons, List.foldl_nil]
      rw [← List.append_assoc, hsnoc, hsnoc, ih, List.length_append, List.length_singleton]
      ring

theorem digitsValue_singleton {d : ℕ} (h : d < 10) : digitsValue [digitChar d] = d := by
  have hd := (digitChar_spec d h).2.1
  simp only [digitsValue, List.foldl_cons, List.foldl_nil, Nat.mul_zero, Nat.zero_add, hd]

/-- All characters are digits. -/
def Digits (ds : List Char) : Prop := ∀ c ∈ ds, isDigit c = true

theorem Digits.append {ds es : List Char} (hd : Digits ds) (he : Digits es) :
    Digits (ds ++ es) := by
  intro c hc
  rcases List.mem_append.mp hc with hc | hc
  · exact hd c hc
  · exact he c hc

theorem digits_singleton {d : ℕ} (h : d < 10) : Digits [digitChar d] := by
  intro c hc
  rw [List.mem_singleton.mp hc]
  exact (digitChar_spec d h).1

theorem takeWhile_digits {ds rest : List Char} (hd : Digits ds)
    (hr : ∀ c cs, rest = c :: cs → isDigit c = false) :
    (ds ++ rest).takeWhile isDigit = ds ∧ (ds ++ rest).dropWhile isDigit = rest := by
  have ht : rest.takeWhile isDigit = [] ∧ rest.dropWhile isDigit = rest := by
    cases rest with
    | nil => exact ⟨rfl, rfl⟩
    | cons c cs => simp [hr c cs rfl]
  rw [List.takeWhile_append_of_pos hd, List.dropWhile_append_of_pos hd, ht.1, ht.2]
  exact ⟨List.append_nil ds, rfl⟩

theorem paddedDigits_length (k n : ℕ) : (paddedDigits k n).length = k := by
  induction k generalizing n with
  | zero => rfl
  | succ k ih => simp [paddedDigits, ih]

theorem paddedDigits_digits (k n : ℕ) : Digits (paddedDigits k n) := by
  induction k generalizing n with
  | zero => intro c hc; cases hc
  | succ k ih => exact (ih _).append (digits_singleton (Nat.mod_lt _ (by norm_num)))

theorem paddedDigits_value (k n : ℕ) : digitsValue (paddedDigits k n) = n % 10 ^ k := by
  induction k generalizing n with
  | zero => simp [paddedDigits, digitsValue, Nat.mod_one]
  | succ k ih =>
      have hlow : n % 10 < 10 := Nat.mod_lt _ (by norm_num)
      rw [paddedDigits, digitsValue_append, ih, digitsValue_singleton hlow]
      rw [Nat.pow_succ', Nat.mod_mul, List.length_singleton]
      ring

theorem digitsUpTo_spec (fuel n : ℕ) (h : n ≤ fuel) :
    Digits (digitsUpTo fuel n) ∧ digitsValue (digitsUpTo fuel n) = n ∧
      ∃ c cs, digitsUpTo fuel n = c :: cs ∧ (c = '0' → n = 0) := by
  induction fuel generalizing n with
  | zero =>
      have hn : n = 0 := Nat.le_zero.mp h
      subst hn
      exact ⟨digits_singleton (by norm_num), rfl, _, _, rfl, fun _ => rfl⟩
  | succ fuel ih =>
      rw [digitsUpTo]
      split_ifs with hn
      · exact ⟨digits_singleton hn, digitsValue_singleton hn, _, _, rfl, (digitChar_spec n hn).2.2⟩
      · have hlow : n % 10 < 10 := Nat.mod_lt _ (by norm_num)
        obtain ⟨hd, hv, c, cs, he, hz⟩ := ih (n / 10) (by omega)
        refine ⟨hd.append (digits_singleton hlow), ?_, c, cs ++ [digitChar (n % 10)], ?_, ?_⟩
        · rw [digitsValue_append, hv, digitsValue_singleton hlow, List.length_singleton]
          omega
        · rw [he, List.cons_append]
        · intro hc
          have := hz hc
          omega

theorem natDigits_digits (n : ℕ) : Digits (natDigits n) := (digitsUpTo_spec n n le_rfl).1

theorem natDigits_value (n : ℕ) : digitsValue (natDigits n) = n := (digitsUpTo_spec n n le_rfl).2.1

theorem natDigits_cons (n : ℕ) : ∃ c cs, natDigits n = c :: cs ∧ isDigit c = true := by
  obtain ⟨hd, -, c, cs, he, -⟩ := digitsUpTo_spec n n le_rfl
  exact ⟨c, cs, he, hd c (by rw [he]; exact List.mem_cons_self)⟩

theorem natDigits_zero : natDigits 0 = ['0'] := rfl

theorem integerPart_natDigits (n : ℕ) {rest : List Char}
    (hr : ∀ c cs, rest = c :: cs → isDigit c = false) :
    integerPart (natDigits n ++ rest) = some (natDigits n, rest) := by
  obtain ⟨hd, -, c, cs, he, hz⟩ := digitsUpTo_spec n n le_rfl
  change natDigits n = c :: cs at he
  change Digits (natDigits n) at hd
  rw [he] at hd ⊢
  rw [List.cons_append, integerPart]
  split_ifs with h₀ h₁
  · have hn := hz h₀
    subst hn
    rw [natDigits_zero] at he
    cases he
    rfl
  · have hcs : Digits cs := fun x hx => hd x (List.mem_cons_of_mem c hx)
    obtain ⟨ht, hdrop⟩ := takeWhile_digits hcs hr
    rw [ht, hdrop]
  · exact absurd (hd c List.mem_cons_self) h₁

/-! ## Numbers -/

theorem Stops.not_digit {rest : List Char} (h : Stops rest) :
    ∀ c cs, rest = c :: cs → isDigit c = false := by
  intro c cs he
  rcases h c cs he with rfl | rfl | rfl <;> decide

theorem fractionPart_stops {rest : List Char} (h : Stops rest) :
    fractionPart rest = ([], rest) := by
  cases rest with
  | nil => rfl
  | cons c cs =>
      have hc : c ≠ '.' := by rcases h c cs rfl with rfl | rfl | rfl <;> decide
      simp [fractionPart, hc]

theorem exponentPart_stops {rest : List Char} (h : Stops rest) :
    exponentPart rest = (none, rest) := by
  cases rest with
  | nil => rfl
  | cons c cs =>
      have hc : c ≠ 'e' ∧ c ≠ 'E' := by rcases h c cs rfl with rfl | rfl | rfl <;> decide
      simp [exponentPart, hc]

theorem number_int (negative : Bool) (n : ℕ) {rest : List Char} (h : Stops rest) :
    number negative (natDigits n ++ rest) =
      some (.int (if negative then -(n : ℤ) else n), rest) := by
  simp [number, integerPart_natDigits n h.not_digit, fractionPart_stops h, exponentPart_stops h,
    natDigits_value]

theorem number_decimal (negative : Bool) (m k : ℕ) {rest : List Char} (h : Stops rest) :
    number negative (natDigits (m / 10 ^ (k + 1)) ++
        '.' :: paddedDigits (k + 1) (m % 10 ^ (k + 1)) ++ rest) =
      some (.float ⟨if negative then -(m : ℤ) else m, k⟩, rest) := by
  have hne : paddedDigits (k + 1) (m % 10 ^ (k + 1)) ≠ [] := by
    intro he
    have hl := paddedDigits_length (k + 1) (m % 10 ^ (k + 1))
    rw [he] at hl
    cases hl
  obtain ⟨ht, hd⟩ := takeWhile_digits
    (paddedDigits_digits (k + 1) (m % 10 ^ (k + 1))) h.not_digit
  have hpoint : ∀ c cs, '.' :: (paddedDigits (k + 1) (m % 10 ^ (k + 1)) ++ rest) = c :: cs →
      isDigit c = false := by
    intro c cs he
    cases he
    decide
  have hfrac : fractionPart ('.' :: (paddedDigits (k + 1) (m % 10 ^ (k + 1)) ++ rest)) =
      (paddedDigits (k + 1) (m % 10 ^ (k + 1)), rest) := by
    simp only [fractionPart, ht, hd]
    simp [hne]
  have hval : digitsValue (natDigits (m / 10 ^ (k + 1)) ++
      paddedDigits (k + 1) (m % 10 ^ (k + 1))) = m := by
    rw [digitsValue_append, natDigits_value, paddedDigits_value, paddedDigits_length,
      Nat.mod_mod]
    exact Nat.div_add_mod' m (10 ^ (k + 1))
  rw [List.append_assoc, List.cons_append]
  simp only [number, integerPart_natDigits _ hpoint, hfrac, exponentPart_stops h, hval, hne,
    Option.bind_eq_bind, Option.bind_some, false_and, ite_false, Option.getD_none,
    paddedDigits_length, decimal]
  simp

/-! ## Strings -/

theorem hexValue_hexDigit : ∀ d < 16, hexValue (hexDigit d) = some d := by decide

theorem hex4_digits {n : ℕ} (h : n < 0x10000) (rest : List Char) :
    hex4 (hexDigit (n / 4096 % 16) :: hexDigit (n / 256 % 16) :: hexDigit (n / 16 % 16) ::
      hexDigit (n % 16) :: rest) = some (n, rest) := by
  have hd : ∀ m : ℕ, hexValue (hexDigit (m % 16)) = some (m % 16) :=
    fun m => hexValue_hexDigit _ (Nat.mod_lt m (by norm_num))
  have hn : ((n / 4096 % 16 * 16 + n / 256 % 16) * 16 + n / 16 % 16) * 16 + n % 16 = n := by omega
  simp only [hex4, hd, Option.bind_eq_bind, Option.bind_some, hn]

theorem char_range (c : Char) :
    c.toNat < 0xD800 ∨ (0xE000 ≤ c.toNat ∧ c.toNat < 0x110000) := by
  have h : c.toNat < 0xD800 ∨ (0xDFFF < c.toNat ∧ c.toNat < 0x110000) := c.valid
  omega

theorem unicodeEscape_low (c : Char) (h : c.toNat < 0x10000) (rest : List Char) :
    unicodeEscape ((encodeHex4 c.toNat).drop 2 ++ rest) = some (c, rest) := by
  have hr := char_range c
  have h₁ : ¬(0xD800 ≤ c.toNat ∧ c.toNat < 0xDC00) := by omega
  have h₂ : ¬(0xDC00 ≤ c.toNat ∧ c.toNat < 0xE000) := by omega
  simp only [encodeHex4, List.drop_succ_cons, List.drop_zero, List.cons_append, List.nil_append,
    unicodeEscape, hex4_digits h, Option.bind_eq_bind, Option.bind_some, h₁, h₂, if_false,
    Char.ofNat_toNat]

/-- Both halves of a surrogate pair are consumed together. -/
theorem unicodeEscape_pair {hi lo : ℕ} (h₁ : 0xD800 ≤ hi ∧ hi < 0xDC00)
    (h₂ : 0xDC00 ≤ lo ∧ lo < 0xE000) (rest : List Char) :
    unicodeEscape ((encodeHex4 hi).drop 2 ++ (encodeHex4 lo ++ rest)) =
      some (Char.ofNat (0x10000 + (hi - 0xD800) * 1024 + (lo - 0xDC00)), rest) := by
  have hlow : lowHalf (encodeHex4 lo ++ rest) = some (lo, rest) := by
    have hd := hex4_digits (n := lo) (by omega) rest
    simp only [encodeHex4, List.cons_append, List.nil_append, lowHalf, hd, Option.bind_eq_bind,
      Option.bind_some, and_self, if_true, h₂]
  have hhigh := hex4_digits (n := hi) (by omega) (encodeHex4 lo ++ rest)
  have hstart : (encodeHex4 hi).drop 2 ++ (encodeHex4 lo ++ rest) =
      hexDigit (hi / 4096 % 16) :: hexDigit (hi / 256 % 16) :: hexDigit (hi / 16 % 16) ::
        hexDigit (hi % 16) :: (encodeHex4 lo ++ rest) := rfl
  rw [hstart]
  simp only [unicodeEscape, hhigh, Option.bind_eq_bind, Option.bind_some, h₁, and_self, if_true,
    hlow]

theorem unicodeEscape_high (c : Char) (h : 0x10000 ≤ c.toNat) (rest : List Char) :
    unicodeEscape ((encodeHex4 (0xD800 + (c.toNat - 0x10000) / 1024)).drop 2 ++
      (encodeHex4 (0xDC00 + (c.toNat - 0x10000) % 1024) ++ rest)) = some (c, rest) := by
  have hr := char_range c
  rw [unicodeEscape_pair (by omega) (by omega)]
  have hc : 0x10000 + (0xD800 + (c.toNat - 0x10000) / 1024 - 0xD800) * 1024 +
      (0xDC00 + (c.toNat - 0x10000) % 1024 - 0xDC00) = c.toNat := by omega
  rw [hc, Char.ofNat_toNat]

/-- One encoded character is read back in one step of the string scanner. -/
theorem stringBody_encodeChar (fuel : ℕ) (c : Char) (rest : List Char) :
    stringBody (fuel + 1) (encodeChar c ++ rest) =
      (stringBody fuel rest).map fun r => (c :: r.1, r.2) := by
  have hescaped : ∀ (x : Char) (tail : List Char), escape tail = some (c, rest) →
      x = '\\' → stringBody (fuel + 1) (x :: tail) =
        (stringBody fuel rest).map fun r => (c :: r.1, r.2) := by
    intro x tail ht hx
    subst hx
    rw [stringBody, if_neg (by decide), if_pos rfl, ht]
    cases hr : stringBody fuel rest <;> simp [hr]
  rw [encodeChar]
  by_cases h₁ : c = '"' ∨ c = '\\'
  · rw [if_pos h₁]
    refine hescaped _ _ ?_ rfl
    change escape (c :: rest) = _
    rw [escape, if_pos (by tauto)]
  rw [if_neg h₁]
  by_cases h₂ : c = '\n'
  · rw [if_pos h₂]
    exact hescaped _ _ (by rw [h₂]; rfl) rfl
  rw [if_neg h₂]
  by_cases h₃ : c = '\r'
  · rw [if_pos h₃]
    exact hescaped _ _ (by rw [h₃]; rfl) rfl
  rw [if_neg h₃]
  by_cases h₄ : c = '\t'
  · rw [if_pos h₄]
    exact hescaped _ _ (by rw [h₄]; rfl) rfl
  rw [if_neg h₄]
  by_cases h₅ : c = '\x0c'
  · rw [if_pos h₅]
    exact hescaped _ _ (by rw [h₅]; rfl) rfl
  rw [if_neg h₅]
  by_cases h₆ : c = '\x08'
  · rw [if_pos h₆]
    exact hescaped _ _ (by rw [h₆]; rfl) rfl
  rw [if_neg h₆]
  by_cases h₇ : 32 ≤ c.toNat ∧ c.toNat < 127
  · rw [if_pos h₇]
    have hc : c ≠ '"' ∧ c ≠ '\\' := by tauto
    change stringBody (fuel + 1) (c :: rest) = _
    rw [stringBody, if_neg hc.1, if_neg hc.2, if_neg (by omega)]
    cases hr : stringBody fuel rest <;> simp
  rw [if_neg h₇]
  by_cases h₈ : c.toNat < 0x10000
  · rw [if_pos h₈]
    exact hescaped _ _ (unicodeEscape_low c h₈ rest) rfl
  · rw [if_neg h₈, List.append_assoc]
    exact hescaped _ _ (unicodeEscape_high c (by omega) rest) rfl

theorem stringBody_encode (cs rest : List Char) (fuel : ℕ) (h : cs.length < fuel) :
    stringBody fuel (cs.flatMap encodeChar ++ '"' :: rest) = some (cs, rest) := by
  induction cs generalizing fuel with
  | nil =>
      obtain ⟨fuel, rfl⟩ : ∃ f, fuel = f + 1 := ⟨fuel - 1, by omega⟩
      simp [stringBody]
  | cons c cs ih =>
      obtain ⟨fuel, rfl⟩ : ∃ f, fuel = f + 1 := ⟨fuel - 1, by omega⟩
      have hlen : cs.length < fuel := by simpa using h
      rw [List.flatMap_cons, List.append_assoc, stringBody_encodeChar, ih fuel hlen]
      rfl

theorem encodeChar_length_pos (c : Char) : 0 < (encodeChar c).length := by
  rw [List.length_pos_iff]
  intro hnil
  -- or a closing quote would be read back as the character
  have hread := stringBody_encodeChar 1 c ['"']
  rw [hnil] at hread
  simp [stringBody] at hread

theorem length_le_flatMap_encodeChar (cs : List Char) :
    cs.length ≤ (cs.flatMap encodeChar).length := by
  induction cs with
  | nil => simp
  | cons c cs ih =>
      have hc := encodeChar_length_pos c
      rw [List.flatMap_cons, List.length_append, List.length_cons]
      omega

theorem stringToken_encode (s : String) (rest : List Char) :
    stringToken (s.toList.flatMap encodeChar ++ '"' :: rest) = some (s, rest) := by
  have hlen := length_le_flatMap_encodeChar s.toList
  rw [stringToken, stringBody_encode]
  · simp
  · rw [List.length_append]
    omega

/-! ## Values -/

theorem skipBlanks_cons {c : Char} (h : isBlank c = false) (cs : List Char) :
    skipBlanks (c :: cs) = c :: cs := by simp [skipBlanks, h]

theorem skipBlanks_gap {c : Char} (h : isBlank c = false) (compact : Bool) (cs : List Char) :
    skipBlanks (gap compact ++ c :: cs) = c :: cs := by
  have hblank : isBlank ' ' = true := by decide
  cases compact <;> simp [gap, skipBlanks, h, hblank]

/-- A character that is neither blank nor a closing bracket. -/
def Opens (c : Char) : Prop := isBlank c = false ∧ c ≠ ']' ∧ c ≠ '\x7d'

theorem opens_of_digit {c : Char} (h : isDigit c = true) : Opens c := by
  have hr : 48 ≤ c.toNat ∧ c.toNat ≤ 57 := by simpa [isDigit] using h
  have hne : ∀ d : Char, d.toNat < 48 ∨ 57 < d.toNat → c ≠ d := by
    intro d hd hcd
    rw [hcd] at hr
    omega
  refine ⟨?_, hne _ (by decide), hne _ (by decide)⟩
  simp only [isBlank, Bool.or_eq_false_iff, decide_eq_false_iff_not]
  exact ⟨⟨⟨hne _ (by decide), hne _ (by decide)⟩, hne _ (by decide)⟩, hne _ (by decide)⟩

theorem withSign_cons (n : ℤ) {c : Char} {cs : List Char} (h : Opens c) :
    ∃ d ds, withSign n (c :: cs) = d :: ds ∧ Opens d := by
  unfold withSign
  split_ifs
  · exact ⟨_, _, rfl, by unfold Opens; decide⟩
  · exact ⟨_, _, rfl, h⟩

/-- Every encoded value starts with a character that opens a value. -/
theorem encode_cons (compact : Bool) (j : Json) :
    ∃ c cs, encode compact j = c :: cs ∧ Opens c := by
  cases j with
  | null => exact ⟨_, _, rfl, by unfold Opens; decide⟩
  | bool b => cases b <;> exact ⟨_, _, rfl, by unfold Opens; decide⟩
  | int n =>
      obtain ⟨c, cs, he, hc⟩ := natDigits_cons n.natAbs
      rw [encode, he]
      exact withSign_cons n (opens_of_digit hc)
  | float x =>
      obtain ⟨c, cs, he, hc⟩ := natDigits_cons (x.mantissa.natAbs / 10 ^ (x.places + 1))
      rw [encode, encodeDecimal, he]
      exact withSign_cons x.mantissa (opens_of_digit hc)
  | nonFinite x => cases x <;> exact ⟨_, _, rfl, by unfold Opens; decide⟩
  | str s => exact ⟨_, _, rfl, by unfold Opens; decide⟩
  | arr elems => exact ⟨_, _, by rw [encode], by unfold Opens; decide⟩
  | obj fields => exact ⟨_, _, by rw [encode], by unfold Opens; decide⟩

theorem constant_eq_none {c : Char} (h : isDigit c = true) (cs : List Char) :
    constant (c :: cs) = none ∧ constant ('-' :: c :: cs) = none := by
  have hr : 48 ≤ c.toNat ∧ c.toNat ≤ 57 := by simpa [isDigit] using h
  have hne : ∀ d : Char, d.toNat < 48 ∨ 57 < d.toNat → ¬d = c := by
    intro d hd hcd
    rw [← hcd] at hr
    omega
  have hn := hne 'n' (by decide)
  have ht := hne 't' (by decide)
  have hf := hne 'f' (by decide)
  have hN := hne 'N' (by decide)
  have hI := hne 'I' (by decide)
  have hm := hne '-' (by decide)
  constructor <;> simp [constant, word, hn, ht, hf, hN, hI, hm]

/-- A number is reached through the scalar branch, whatever its sign. -/
theorem value_signed (fuel : ℕ) (n : ℤ) {c : Char} {cs : List Char} (h : isDigit c = true) :
    value (fuel + 1) (withSign n (c :: cs)) = number (decide (n < 0)) (c :: cs) := by
  obtain ⟨h₁, h₂⟩ := constant_eq_none h cs
  have hr : 48 ≤ c.toNat ∧ c.toNat ≤ 57 := by simpa [isDigit] using h
  have hne : ∀ d : Char, d.toNat < 48 ∨ 57 < d.toNat → c ≠ d := by
    intro d hd hcd
    rw [hcd] at hr
    omega
  have hq := hne '"' (by decide)
  have hb := hne '[' (by decide)
  have ho := hne '\x7b' (by decide)
  have hm := hne '-' (by decide)
  unfold withSign
  split_ifs with hn
  · simp [value, scalar, h₂, hn]
  · simp [value, scalar, h₁, hn, hq, hb, ho, hm]

theorem withSign_append (n : ℤ) (ds rest : List Char) :
    withSign n ds ++ rest = withSign n (ds ++ rest) := by
  unfold withSign
  split_ifs <;> rfl

theorem sign_natAbs (n : ℤ) : (if decide (n < 0) then -(n.natAbs : ℤ) else n.natAbs) = n := by
  simp only [decide_eq_true_eq]
  split_ifs <;> omega

theorem value_int (fuel : ℕ) (n : ℤ) {rest : List Char} (h : Stops rest) :
    value (fuel + 1) (withSign n (natDigits n.natAbs) ++ rest) = some (.int n, rest) := by
  obtain ⟨c, cs, he, hc⟩ := natDigits_cons n.natAbs
  have hnum := number_int (decide (n < 0)) n.natAbs h
  rw [sign_natAbs, he, List.cons_append] at hnum
  rw [withSign_append, he, List.cons_append, value_signed fuel n hc, hnum]

theorem value_float (fuel : ℕ) (x : Decimal) {rest : List Char} (h : Stops rest) :
    value (fuel + 1) (encodeDecimal x ++ rest) = some (.float x, rest) := by
  obtain ⟨c, cs, he, hc⟩ := natDigits_cons (x.mantissa.natAbs / 10 ^ (x.places + 1))
  have hnum := number_decimal (decide (x.mantissa < 0)) x.mantissa.natAbs x.places h
  rw [sign_natAbs, he, List.cons_append, List.cons_append] at hnum
  rw [encodeDecimal, withSign_append, he, List.cons_append, List.cons_append,
    value_signed fuel x.mantissa hc, hnum]

theorem encodeString_append (s : String) (rest : List Char) :
    encodeString s ++ rest = '"' :: (s.toList.flatMap encodeChar ++ '"' :: rest) := by
  simp [encodeString]

theorem value_str (fuel : ℕ) (s : String) (rest : List Char) :
    value (fuel + 1) (encodeString s ++ rest) = some (.str s, rest) := by
  rw [encodeString_append, value, if_pos rfl, stringToken_encode]
  rfl

theorem value_word (fuel : ℕ) (rest : List Char) :
    value (fuel + 1) ("null".toList ++ rest) = some (.null, rest) ∧
    value (fuel + 1) ("true".toList ++ rest) = some (.bool true, rest) ∧
    value (fuel + 1) ("false".toList ++ rest) = some (.bool false, rest) ∧
    value (fuel + 1) ("NaN".toList ++ rest) = some (.nonFinite .nan, rest) ∧
    value (fuel + 1) ("Infinity".toList ++ rest) = some (.nonFinite .infinity, rest) ∧
    value (fuel + 1) ("-Infinity".toList ++ rest) = some (.nonFinite .negInfinity, rest) := by
  refine ⟨?_, ?_, ?_, ?_, ?_, ?_⟩ <;> simp [value, scalar, constant, word]

theorem encodeElements_cons_cons (compact : Bool) (v w : Json) (ws : List Json) :
    encodeElements compact (v :: w :: ws) =
      encode compact v ++ ',' :: (gap compact ++ encodeElements compact (w :: ws)) := by
  rw [encodeElements, List.append_assoc, List.cons_append]
  simp

theorem encodeFields_cons_cons (compact : Bool) (k : String) (v : Json) (f : String × Json)
    (fs : List (String × Json)) :
    encodeFields compact ((k, v) :: f :: fs) =
      encodeString k ++ ':' :: (gap compact ++ (encode compact v ++
        ',' :: (gap compact ++ encodeFields compact (f :: fs)))) := by
  rw [encodeFields]
  · simp
  · simp

theorem encodeElements_cons (compact : Bool) (v : Json) (vs : List Json) :
    ∃ c cs, encodeElements compact (v :: vs) = c :: cs ∧ Opens c := by
  obtain ⟨c, cs, he, hc⟩ := encode_cons compact v
  cases vs with
  | nil => exact ⟨c, cs ++ [']'], by rw [encodeElements, he]; rfl, hc⟩
  | cons w ws => exact ⟨c, _, by rw [encodeElements_cons_cons, he]; rfl, hc⟩

theorem encodeFields_cons (compact : Bool) (k : String) (v : Json) (kvs : List (String × Json)) :
    ∃ cs, encodeFields compact ((k, v) :: kvs) = '"' :: cs := by
  cases kvs with
  | nil => exact ⟨_, by rw [encodeFields, encodeString]; rfl⟩
  | cons f fs => exact ⟨_, by rw [encodeFields_cons_cons, encodeString]; rfl⟩

/-- With this fuel every encoded tree, list of elements or list of fields whose
text is at most half as long is decoded. -/
structure DecodesAt (compact : Bool) (fuel : ℕ) : Prop where
  value : ∀ (j : Json) (rest : List Char), Stops rest → 2 * (encode compact j).length ≤ fuel →
    JsonText.value fuel (encode compact j ++ rest) = some (j, rest)
  elements : ∀ (v : Json) (vs : List Json) (rest : List Char),
    2 * (encodeElements compact (v :: vs)).length ≤ fuel →
    JsonText.elements fuel (encodeElements compact (v :: vs) ++ rest) = some (v :: vs, rest)
  members : ∀ (k : String) (v : Json) (kvs : List (String × Json)) (rest : List Char),
    2 * (encodeFields compact ((k, v) :: kvs)).length ≤ fuel →
    JsonText.members fuel (encodeFields compact ((k, v) :: kvs) ++ rest) =
      some ((k, v) :: kvs, rest)

theorem decodesAt_zero (compact : Bool) : DecodesAt compact 0 where
  value := by
    intro j rest _ hf
    obtain ⟨c, cs, he, -⟩ := encode_cons compact j
    rw [he, List.length_cons] at hf
    omega
  elements := by
    intro v vs rest hf
    obtain ⟨c, cs, he, -⟩ := encodeElements_cons compact v vs
    rw [he, List.length_cons] at hf
    omega
  members := by
    intro k v kvs rest hf
    obtain ⟨cs, he⟩ := encodeFields_cons compact k v kvs
    rw [he, List.length_cons] at hf
    omega

section Step

variable {compact : Bool} {fuel : ℕ}

theorem DecodesAt.value_succ (ih : DecodesAt compact fuel) (j : Json) (rest : List Char)
    (h : Stops rest) (hf : 2 * (encode compact j).length ≤ fuel + 1) :
    JsonText.value (fuel + 1) (encode compact j ++ rest) = some (j, rest) := by
  have hw := value_word fuel rest
  match j with
  | .null => exact hw.1
  | .bool true => exact hw.2.1
  | .bool false => exact hw.2.2.1
  | .int n => rw [encode]; exact value_int fuel n h
  | .float x => rw [encode]; exact value_float fuel x h
  | .nonFinite .nan => exact hw.2.2.2.1
  | .nonFinite .infinity => exact hw.2.2.2.2.1
  | .nonFinite .negInfinity => exact hw.2.2.2.2.2
  | .str s => rw [encode]; exact value_str fuel s rest
  | .arr [] => rfl
  | .arr (v :: vs) =>
      rw [encode, List.length_cons] at hf
      have hv := ih.elements v vs rest (by omega)
      obtain ⟨c, cs, he, hc⟩ := encodeElements_cons compact v vs
      rw [he, List.cons_append] at hv
      rw [encode, List.cons_append, he, List.cons_append, JsonText.value]
      simp only [skipBlanks_cons hc.1, hc.2.1, hv]
      rfl
  | .obj [] => rfl
  | .obj ((k, v) :: kvs) =>
      rw [encode, List.length_cons] at hf
      have hv := ih.members k v kvs rest (by omega)
      obtain ⟨cs, he⟩ := encodeFields_cons compact k v kvs
      rw [he, List.cons_append] at hv
      rw [encode, List.cons_append, he, List.cons_append, JsonText.value]
      simp only [skipBlanks_cons (show isBlank '"' = false by decide), hv]
      rfl

theorem DecodesAt.elements_succ (ih : DecodesAt compact fuel) (v : Json) (vs : List Json)
    (rest : List Char) (hf : 2 * (encodeElements compact (v :: vs)).length ≤ fuel + 1) :
    JsonText.elements (fuel + 1) (encodeElements compact (v :: vs) ++ rest) =
      some (v :: vs, rest) := by
  cases vs with
  | nil =>
      rw [encodeElements, List.length_append, List.length_singleton] at hf
      have hv := ih.value v (']' :: rest) (stops_cons (by decide)) (by omega)
      rw [encodeElements, List.append_assoc, List.singleton_append, JsonText.elements, hv]
      simp [skipBlanks_cons (show isBlank ']' = false by decide)]
  | cons w ws =>
      rw [encodeElements_cons_cons, List.length_append, List.length_cons, List.length_append] at hf
      have hv := ih.value v
        (',' :: (gap compact ++ (encodeElements compact (w :: ws) ++ rest)))
        (stops_cons (by decide)) (by omega)
      have hws := ih.elements w ws rest (by omega)
      obtain ⟨c, cs, he, hc⟩ := encodeElements_cons compact w ws
      have hskip : skipBlanks (gap compact ++ (encodeElements compact (w :: ws) ++ rest)) =
          encodeElements compact (w :: ws) ++ rest := by
        rw [he, List.cons_append, skipBlanks_gap hc.1]
      rw [encodeElements_cons_cons, List.append_assoc, List.cons_append, List.append_assoc,
        JsonText.elements, hv]
      simp [skipBlanks_cons (show isBlank ',' = false by decide), hskip, hws]

theorem DecodesAt.members_succ (ih : DecodesAt compact fuel) (k : String) (v : Json)
    (kvs : List (String × Json)) (rest : List Char)
    (hf : 2 * (encodeFields compact ((k, v) :: kvs)).length ≤ fuel + 1) :
    JsonText.members (fuel + 1) (encodeFields compact ((k, v) :: kvs) ++ rest) =
      some ((k, v) :: kvs, rest) := by
  obtain ⟨c, cs, he, hc⟩ := encode_cons compact v
  have hcolon : isBlank ':' = false := by decide
  have hskipValue : ∀ tail, skipBlanks (gap compact ++ (encode compact v ++ tail)) =
      encode compact v ++ tail := by
    intro tail
    rw [he, List.cons_append, skipBlanks_gap hc.1]
  cases kvs with
  | nil =>
      have hlen : (encode compact v).length + 1 ≤ (encodeFields compact [(k, v)]).length := by
        rw [encodeFields]
        simp only [List.length_append, List.length_cons, List.length_nil]
        omega
      have hv := ih.value v ('\x7d' :: rest) (stops_cons (by decide)) (by omega)
      have htext : encodeFields compact [(k, v)] ++ rest =
          encodeString k ++ ':' :: (gap compact ++ (encode compact v ++ '\x7d' :: rest)) := by
        simp [encodeFields]
      rw [htext, encodeString_append, JsonText.members, if_pos rfl, stringToken_encode]
      simp [skipBlanks_cons hcolon, hskipValue, hv,
        skipBlanks_cons (show isBlank '\x7d' = false by decide)]
  | cons f fs =>
      obtain ⟨j, w⟩ := f
      have hlen : (encode compact v).length + 1 ≤
            (encodeFields compact ((k, v) :: (j, w) :: fs)).length ∧
          (encodeFields compact ((j, w) :: fs)).length + 1 ≤
            (encodeFields compact ((k, v) :: (j, w) :: fs)).length := by
        rw [encodeFields_cons_cons]
        simp only [List.length_append, List.length_cons]
        omega
      have hv := ih.value v
        (',' :: (gap compact ++ (encodeFields compact ((j, w) :: fs) ++ rest)))
        (stops_cons (by decide)) (by omega)
      have hfs := ih.members j w fs rest (by omega)
      obtain ⟨ds, hq⟩ := encodeFields_cons compact j w fs
      have hskip : skipBlanks (gap compact ++ (encodeFields compact ((j, w) :: fs) ++ rest)) =
          encodeFields compact ((j, w) :: fs) ++ rest := by
        rw [hq, List.cons_append, skipBlanks_gap (by decide)]
      rw [encodeFields_cons_cons, List.append_assoc, List.cons_append, encodeString_append,
        JsonText.members, if_pos rfl, stringToken_encode]
      simp [skipBlanks_cons hcolon, hskipValue, hv,
        skipBlanks_cons (show isBlank ',' = false by decide), hskip, hfs]

end Step

theorem decodesAt (compact : Bool) (fuel : ℕ) : DecodesAt compact fuel := by
  induction fuel with
  | zero => exact decodesAt_zero compact
  | succ fuel ih => exact ⟨ih.value_succ, ih.elements_succ, ih.members_succ⟩

/-- Whatever the separators, the text of a tree decodes to the tree. -/
theorem loads_encode (compact : Bool) (j : Json) :
    loads (String.ofList (encode compact j)) = some j := by
  obtain ⟨c, cs, he, hc⟩ := encode_cons compact j
  have hskip : skipBlanks (encode compact j) = encode compact j := by
    rw [he]
    exact skipBlanks_cons hc.1 cs
  have hv := (decodesAt compact _).value j [] stops_nil le_rfl
  rw [List.append_nil] at hv
  have hend : skipBlanks [] = [] := rfl
  simp [loads, hskip, hv, hend]

@[simp] theorem loads_dumps (j : Json) : loads (dumps j) = some j := loads_encode false j

@[simp] theorem loads_dumpsCompact (j : Json) : loads (dumpsCompact j) = some j :=
  loads_encode true j

theorem dumps_injective : Function.Injective dumps := by
  intro j k h
  have hl := congrArg loads h
  rw [loads_dumps, loads_dumps] at hl
  exact Option.some.inj hl

/-- Trees are compared through their texts. -/
instance : DecidableEq Json := fun j k =>
  decidable_of_iff (dumps j = dumps k) dumps_injective.eq_iff

example : loads " \x7b\"a\": [1, -2.50, null], \"a\" :1e2\x7d" =
    some (.obj [("a", .arr [.int 1, .float ⟨-250, 1⟩, .null]), ("a", .float ⟨1000, 0⟩)]) := by
  decide +kernel

end MilvusOnprem.JsonText
