import MilvusOnprem.TokenRotation

/-!
# The gate of the mutating routes

`require_token` with what it raises, instead of the answer that a caller sees: the
exceptions that are meant for a header, and the one of the comparison, which is a partial
function on texts.
-/
namespace MilvusOnprem.TokenGate

open PythonText
open TokenRotation (HttpError isAscii)

structure HttpException where
  status : ℕ
  detail : String
  headers : List (String × String)
deriving DecidableEq, Repr

inductive Raised
  | http (e : HttpException)
  | typeError
deriving DecidableEq, Repr

def missingToken : HttpException := ⟨401, "missing bearer token", [("WWW-Authenticate", "Bearer")]⟩

def invalidToken : HttpException := ⟨403, "invalid token", []⟩

/-- `secrets.compare_digest` on two texts. -/
def compareDigest (a b : String) : Except Raised Bool :=
  if isAscii a && isAscii b then .ok (a = b) else .error .typeError

/-- `authorization.split(" ", 1)[1]`, which is there behind a scheme. -/
def secondPart (authorization : String) : String := ((partition ' ' authorization).map Prod.snd).getD ""

/-- `require_token` -/
def requireToken (authorization : Option String) (clusterToken : String) : Except Raised Unit :=
  match authorization with
  | none => .error (.http missingToken)
  | some header =>
      if header = "" || !startsWith (lower header) "bearer " then .error (.http missingToken)
      else
        match compareDigest (strip (secondPart header)) clusterToken with
        | .error e => .error e
        | .ok equal => if equal then .ok () else .error (.http invalidToken)

/-- The scheme in any case, one space, and a text. -/
def IsBearer (authorization : Option String) (text : String) : Prop :=
  ∃ scheme, lower scheme = "bearer" ∧ authorization = some (scheme ++ " " ++ text)

/-- The token is shown, up to blanks around it. -/
def Presents (authorization : Option String) (clusterToken : String) : Prop :=
  ∃ text, IsBearer authorization text ∧ strip text = clusterToken

/-- The call returns for the token, and every other header is refused with the exception
that is meant for it. -/
structure Gate (authorization : Option String) (clusterToken : String) : Prop where
  returns : requireToken authorization clusterToken = .ok () ↔ Presents authorization clusterToken
  malformed : (¬∃ text, IsBearer authorization text) →
    ∃ e, requireToken authorization clusterToken = .error (.http e) ∧ e.status = 401
  wrong : (∃ text, IsBearer authorization text) → ¬Presents authorization clusterToken →
    ∃ e, requireToken authorization clusterToken = .error (.http e) ∧ e.status = 403

/-! ## The header -/

theorem lowerChar_eq_blank {c : Char} (h : lowerChar c = ' ') : c = ' ' := by
  unfold lowerChar at h
  split_ifs at h with hupper
  · have hvalid : (c.toNat + 32).isValidChar := .inl (by omega)
    have hnat : (Char.ofNat (c.toNat + 32)).toNat = c.toNat + 32 := by
      rw [Char.ofNat, dif_pos hvalid]
      rfl
    rw [h] at hnat
    have hblank : (' ' : Char).toNat = 32 := rfl
    omega
  · exact h

theorem blank_notMem_scheme {scheme : String} (h : lower scheme = "bearer") : ' ' ∉ scheme.toList := by
  intro hmem
  have hlower : ' ' ∈ (lower scheme).toList := by
    rw [lower, String.toList_ofList]
    exact List.mem_map.mpr ⟨' ', hmem, rfl⟩
  rw [h] at hlower
  revert hlower
  decide

theorem secondPart_bearer {scheme : String} (h : lower scheme = "bearer") (text : String) :
    secondPart (scheme ++ " " ++ text) = text := by
  have hlist : (scheme ++ " " ++ text).toList = scheme.toList ++ ' ' :: text.toList := by
    simp [String.toList_append]
  have hscheme : ∀ c ∈ scheme.toList, decide (c ≠ ' ') = true := fun c hc =>
    decide_eq_true fun he => blank_notMem_scheme h (he ▸ hc)
  have hdrop : (scheme.toList ++ ' ' :: text.toList).dropWhile (fun c => c ≠ ' ') = ' ' :: text.toList := by
    rw [List.dropWhile_append_of_pos hscheme]
    simp
  rw [secondPart, partition, hlist, if_pos (by simp), hdrop]
  simp

theorem startsWith_bearer_iff (header : String) : startsWith (lower header) "bearer " = true ↔
    ∃ text, IsBearer (some header) text := by
  have hlower : (lower header).toList = header.toList.map lowerChar := String.toList_ofList
  have hbearer : "bearer ".toList = "bearer".toList ++ [' '] := rfl
  rw [startsWith, List.isPrefixOf_iff_prefix, hlower, hbearer]
  constructor
  · rintro ⟨rest, hrest⟩
    obtain ⟨head, tail, hheader, hhead, htail⟩ := List.map_eq_append_iff.mp hrest.symm
    obtain ⟨scheme, blank, rfl, hscheme, hblank⟩ := List.map_eq_append_iff.mp hhead
    obtain ⟨c, rfl, hc⟩ := List.map_eq_singleton_iff.mp hblank
    rw [lowerChar_eq_blank hc] at hheader
    refine ⟨String.ofList tail, String.ofList scheme, ?_, ?_⟩
    · apply String.toList_injective
      rw [lower, String.toList_ofList, String.toList_ofList, hscheme]
    · rw [← String.ofList_toList (s := header), hheader]
      apply congrArg some
      apply String.toList_injective
      simp [String.toList_append]
  · rintro ⟨text, scheme, hscheme, hheader⟩
    cases Option.some.inj hheader
    have hword : scheme.toList.map lowerChar = "bearer".toList := by
      rw [← hscheme, lower, String.toList_ofList]
    refine ⟨text.toList.map lowerChar, ?_⟩
    rw [String.toList_append, String.toList_append, List.map_append, List.map_append, hword]
    rfl

section Gate

variable {authorization : Option String} {clusterToken text : String}

theorem requireToken_malformed (clusterToken : String) (h : ¬∃ text, IsBearer authorization text) :
    requireToken authorization clusterToken = .error (.http missingToken) := by
  cases authorization with
  | none => rfl
  | some header =>
      rw [← startsWith_bearer_iff, Bool.not_eq_true] at h
      rw [requireToken, h, Bool.not_false, Bool.or_true, if_pos rfl]

/-- On a bearer header the call comes down to the comparison. -/
theorem requireToken_bearer (clusterToken : String) (h : IsBearer authorization text) :
    requireToken authorization clusterToken =
      if isAscii (strip text) && isAscii clusterToken then
        if strip text = clusterToken then .ok () else .error (.http invalidToken)
      else .error .typeError := by
  obtain ⟨scheme, hscheme, rfl⟩ := h
  have hstarts : startsWith (lower (scheme ++ " " ++ text)) "bearer " = true :=
    (startsWith_bearer_iff _).mpr ⟨text, scheme, hscheme, rfl⟩
  have hne : scheme ++ " " ++ text ≠ "" := by
    intro he
    have hnil := congrArg String.toList he
    simp [String.toList_append] at hnil
  rw [requireToken, hstarts, decide_eq_false hne, Bool.not_true, Bool.or_false, if_neg Bool.false_ne_true,
    secondPart_bearer hscheme, compareDigest]
  split_ifs with hascii hequal
  · simp [hequal]
  · simp [hequal]
  · rfl

theorem isBearer_unique {other : String} (h : IsBearer authorization text)
    (hother : IsBearer authorization other) : text = other := by
  obtain ⟨scheme, hscheme, rfl⟩ := h
  obtain ⟨scheme', hscheme', heq⟩ := hother
  rw [← secondPart_bearer hscheme text, Option.some.inj heq, secondPart_bearer hscheme']

theorem presents_iff (h : IsBearer authorization text) :
    Presents authorization clusterToken ↔ strip text = clusterToken :=
  ⟨fun ⟨_, hother, hstrip⟩ => isBearer_unique h hother ▸ hstrip, fun hstrip => ⟨text, h, hstrip⟩⟩

theorem ascii_of_gate (h : Gate authorization clusterToken) (hbearer : IsBearer authorization text) :
    isAscii (strip text) = true ∧ isAscii clusterToken = true := by
  have hcall := requireToken_bearer clusterToken hbearer
  by_cases hascii : (isAscii (strip text) && isAscii clusterToken) = true
  · exact Bool.and_eq_true_iff.mp hascii
  · rw [if_neg hascii] at hcall
    by_cases hpresents : Presents authorization clusterToken
    · rw [h.returns.mpr hpresents] at hcall
      cases hcall
    · obtain ⟨e, he, -⟩ := h.wrong ⟨text, hbearer⟩ hpresents
      rw [he] at hcall
      cases hcall

theorem gate_of_ascii (h : ∀ text, IsBearer authorization text →
    isAscii (strip text) = true ∧ isAscii clusterToken = true) : Gate authorization clusterToken := by
  by_cases hbearer : ∃ text, IsBearer authorization text
  · obtain ⟨text, htext⟩ := hbearer
    obtain ⟨hshown, htoken⟩ := h text htext
    have hcall := requireToken_bearer clusterToken htext
    rw [hshown, htoken, Bool.and_self, if_pos rfl] at hcall
    refine ⟨?_, fun hno => absurd ⟨text, htext⟩ hno, fun _ hno => ?_⟩
    · rw [presents_iff htext, hcall]
      split_ifs with hequal
      · exact iff_of_true rfl hequal
      · exact iff_of_false nofun hequal
    · rw [presents_iff htext] at hno
      rw [if_neg hno] at hcall
      exact ⟨invalidToken, hcall, rfl⟩
  · have hcall := requireToken_malformed clusterToken hbearer
    refine ⟨?_, fun _ => ⟨missingToken, hcall, rfl⟩, fun hsome => absurd hsome hbearer⟩
    rw [hcall]
    exact iff_of_false nofun fun ⟨text, htext, _⟩ => hbearer ⟨text, htext⟩

end Gate

/-- The gate does what it says unless a bearer header meets a text outside ASCII, in what
it shows or in the token of the config. -/
theorem gate_iff (authorization : Option String) (clusterToken : String) :
    Gate authorization clusterToken ↔ ∀ text, IsBearer authorization text →
      isAscii (strip text) = true ∧ isAscii clusterToken = true :=
  ⟨fun h _ hbearer => ascii_of_gate h hbearer, gate_of_ascii⟩

/-- A letter with an accent in a header makes the comparison raise. -/
theorem accent_raises : ¬∀ authorization clusterToken, Gate authorization clusterToken := by
  intro h
  have hbearer : IsBearer (some "Bearer é") "é" := ⟨"Bearer", by decide, rfl⟩
  have hascii := (ascii_of_gate (h _ "secret") hbearer).1
  revert hascii
  decide +kernel

/-- The answer of the server to an exception. -/
def answer : Raised → HttpError
  | .http e => ⟨e.status, e.detail⟩
  | .typeError => ⟨500, "Internal Server Error"⟩

/-- What a caller sees of the gate. -/
theorem requireToken_answer (authorization : Option String) (clusterToken : String) :
    TokenRotation.requireToken authorization clusterToken =
      (requireToken authorization clusterToken).mapError answer := by
  cases authorization with
  | none => rfl
  | some header =>
      by_cases hbearer : ∃ text, IsBearer (some header) text
      · obtain ⟨text, htext⟩ := hbearer
        have hstarts := (startsWith_bearer_iff header).mpr ⟨text, htext⟩
        rw [requireToken_bearer _ htext]
        obtain ⟨scheme, hscheme, hheader⟩ := htext
        have hpart : ∃ first, partition ' ' header = some (first, text) := by
          have hmem : ' ' ∈ header.toList := by
            rw [Option.some.inj hheader]
            simp [String.toList_append]
          have hsecond := secondPart_bearer hscheme text
          rw [← Option.some.inj hheader, secondPart, partition, if_pos hmem, Option.map_some,
            Option.getD_some] at hsecond
          rw [partition, if_pos hmem]
          exact ⟨_, congrArg some (Prod.ext rfl hsecond)⟩
        obtain ⟨first, hpart⟩ := hpart
        simp only [TokenRotation.requireToken, hstarts, hpart, not_true_eq_false, if_false,
          Bool.and_eq_true]
        split_ifs with h1 h2 <;> simp_all [Except.mapError, answer, invalidToken]
      · have hstarts := mt (startsWith_bearer_iff header).mp hbearer
        rw [requireToken_malformed _ hbearer]
        simp only [TokenRotation.requireToken, hstarts]
        rfl

end MilvusOnprem.TokenGate
