import MilvusOnprem.PythonText

/-!
# The flags of a shell command

A shell function goes through its arguments with `case`: a flag with a value is written
`--flag=value` or as two arguments, a switch is one argument, and an argument that is no
flag ends the function. It runs under `set -u`, so a value that is missing ends it too.
-/
namespace MilvusOnprem.FlagLoop

open PythonText

variable {V : Type*}

/-- What a flag does to the variables of the function. -/
inductive FlagKind (V : Type*)
  | value (set : String → V → V)
  | switch (set : V → V)

inductive Parsed (V : Type*)
  | vars (v : V)
  | help
  | unknown (arg : String)
  | unbound

def parse (flags : String → Option (FlagKind V)) : V → List String → Parsed V
  | v, [] => .vars v
  | v, arg :: rest =>
      if arg = "-h" ∨ arg = "--help" then .help
      else
        match partition '=' arg with
        | some (name, value) =>
            match flags name with
            | some (.value set) => parse flags (set value v) rest
            | _ => .unknown arg
        | none =>
            match flags arg with
            | some (.switch set) => parse flags (set v) rest
            | some (.value set) =>
                match rest with
                | [] => .unbound
                | value :: rest => parse flags (set value v) rest
            | none => .unknown arg

/-- `--flag=value`, if there is a value. -/
def flagText (name : String) (given : Option String) : List String :=
  (given.map fun value => name ++ "=" ++ value).toList

theorem partition_append {name : String} (h : '=' ∉ name.toList) (value : String) :
    partition '=' (name ++ "=" ++ value) = some (name, value) := by
  have hall : ∀ c ∈ name.toList, decide (c ≠ '=') = true := by
    intro c hc
    rw [decide_eq_true_eq]
    rintro rfl
    exact h hc
  have hchars : (name ++ "=" ++ value).toList = name.toList ++ '=' :: value.toList := by
    simp
  rw [partition, hchars, if_pos (by simp), List.takeWhile_append_of_pos hall, List.dropWhile_append_of_pos hall,
    List.takeWhile_cons_of_neg (by simp), List.dropWhile_cons_of_neg (by simp)]
  simp

section Parse

variable {flags : String → Option (FlagKind V)} {v : V} {name : String}

theorem parse_value {set : String → V → V} (hname : '=' ∉ name.toList) (hflag : flags name = some (.value set))
    (value : String) (rest : List String) :
    parse flags v ((name ++ "=" ++ value) :: rest) = parse flags (set value v) rest := by
  have hhelp : ¬(name ++ "=" ++ value = "-h" ∨ name ++ "=" ++ value = "--help") := by
    have hmem : '=' ∈ (name ++ "=" ++ value).toList := by simp
    rintro (h | h)
    · rw [h] at hmem
      revert hmem
      decide
    · rw [h] at hmem
      revert hmem
      decide
  rw [parse, if_neg hhelp, partition_append hname]
  dsimp only
  rw [hflag]

theorem parse_switch {set : V → V} (hname : '=' ∉ name.toList) (hhelp : ¬(name = "-h" ∨ name = "--help"))
    (hflag : flags name = some (.switch set)) (rest : List String) :
    parse flags v (name :: rest) = parse flags (set v) rest := by
  have hnone : partition '=' name = none := if_neg hname
  rw [parse, if_neg hhelp, hnone]
  dsimp only
  rw [hflag]

theorem parse_optional {set : String → V → V} (hname : '=' ∉ name.toList) (hflag : flags name = some (.value set))
    (given : Option String) (rest : List String) :
    parse flags v (flagText name given ++ rest) = parse flags (given.elim v fun value => set value v) rest := by
  cases given with
  | none => rfl
  | some value => exact parse_value hname hflag value rest

/-- A flag that sets a field leaves it as it is when there is no value. -/
theorem parse_field {set : String → V → V} {get : V → String} (hname : '=' ∉ name.toList)
    (hflag : flags name = some (.value set)) (hget : ∀ v, set (get v) v = v) (given : Option String)
    (rest : List String) :
    parse flags v (flagText name given ++ rest) = parse flags (set (given.getD (get v)) v) rest := by
  rw [parse_optional hname hflag]
  cases given with
  | none => exact congrArg (parse flags · rest) (hget v).symm
  | some value => rfl

theorem parse_optionalSwitch {set : V → V} (hname : '=' ∉ name.toList) (hhelp : ¬(name = "-h" ∨ name = "--help"))
    (hflag : flags name = some (.switch set)) (given : Bool) (rest : List String) :
    parse flags v ((if given then [name] else []) ++ rest) = parse flags (if given then set v else v) rest := by
  cases given with
  | false => rfl
  | true => exact parse_switch hname hhelp hflag rest

end Parse

end MilvusOnprem.FlagLoop
