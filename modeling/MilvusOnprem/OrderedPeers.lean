import MilvusOnprem.Joining

/-!
# The peers a worker goes through

The workers and the topology handlers turn a mapping from node names to infos
into the list of its peers with an ip, by node number. An ip that is set but is
no text is written as its JSON text.
-/
namespace MilvusOnprem.OrderedPeers

open MilvusOnprem.Topology Joining

/-- An ip in an f-string. -/
def ipText : Json → String
  | .str s => s
  | j => JsonText.dumps j

/-- `[(name, info["ip"]) for name, info in peers if info.get("ip")]` -/
def withIps : List (String × Json) → Except Exc (List (String × String))
  | [] => .ok []
  | (name, info) :: rest => do
      let ip ← infoGet "ip" info
      let ips ← withIps rest
      .ok (match ip with
        | some v => if v.truthy then (name, ipText v) :: ips else ips
        | none => ips)

/-- `sorted(peers.items(), key=lambda kv: _node_sort_key(kv[0]))` -/
def byNode (peers : List (String × Json)) : List (String × Json) :=
  peers.insertionSort fun a b => keyLe (nodeSortKey a.1) (nodeSortKey b.1) = true

def sortedPeers (peers : List (String × Json)) : Except Exc (List (String × String)) :=
  withIps (byNode peers)

/-- The ip a worker uses for an info, if it uses one. -/
def usedIp : Json → Option String
  | .obj fields =>
      match Json.field "ip" fields with
      | some v => if v.truthy then some (ipText v) else none
      | none => none
  | _ => none

theorem withIps_ok {peers : List (String × Json)} {ips : List (String × String)}
    (h : withIps peers = .ok ips) :
    ips = peers.filterMap fun e => (usedIp e.2).map fun ip => (e.1, ip) := by
  induction peers generalizing ips with
  | nil =>
      cases h
      rfl
  | cons e rest ih =>
      obtain ⟨name, info⟩ := e
      cases info with
      | obj fields =>
          cases hrest : withIps rest with
          | error x =>
              simp only [withIps, infoGet, hrest, bind, Except.bind] at h
              cases h
          | ok ips' =>
              simp only [withIps, infoGet, hrest, bind, Except.bind, Except.ok.injEq] at h
              rw [List.filterMap_cons, ← ih hrest, ← h]
              cases hip : Json.field "ip" fields with
              | none => simp [usedIp, hip]
              | some v => by_cases hv : v.truthy <;> simp [usedIp, hip, hv]
      | _ => cases h

theorem withIps_error {peers : List (String × Json)} {e : Exc} (h : withIps peers = .error e) :
    e = .attributeError := by
  induction peers with
  | nil => cases h
  | cons x rest ih =>
      obtain ⟨name, info⟩ := x
      cases info with
      | obj fields =>
          cases hrest : withIps rest with
          | error y =>
              simp only [withIps, infoGet, hrest, bind, Except.bind, Except.error.injEq] at h
              exact ih (h ▸ hrest)
          | ok ips =>
              simp only [withIps, infoGet, hrest, bind, Except.bind] at h
              cases h
      | _ =>
          cases h
          rfl

/-- The peers that are gone through are those with an ip. -/
theorem mem_sortedPeers {peers : List (String × Json)} {ips : List (String × String)}
    (h : sortedPeers peers = .ok ips) {name ip : String} :
    (name, ip) ∈ ips ↔ ∃ info, (name, info) ∈ peers ∧ usedIp info = some ip := by
  rw [withIps_ok h]
  simp only [List.mem_filterMap, Option.map_eq_some_iff, Prod.mk.injEq]
  constructor
  · rintro ⟨e, he, ip', hip, hname, heq⟩
    subst hname heq
    exact ⟨e.2, (List.mem_insertionSort _).mp he, hip⟩
  · rintro ⟨info, hinfo, hip⟩
    exact ⟨(name, info), (List.mem_insertionSort _).mpr hinfo, ip, hip, rfl, rfl⟩

theorem usedIp_of_ipOf {info : Json} {ip : String} (h : ipOf info = some ip) (hne : ip ≠ "") :
    usedIp info = some ip ∧ ∃ fields, info = .obj fields := by
  cases info with
  | obj fields =>
      refine ⟨?_, fields, rfl⟩
      simp only [ipOf] at h
      split at h
      · next v hv =>
          cases h
          simp [usedIp, hv, Json.truthy, hne, ipText]
      · cases h
  | _ => cases h

/-! ## The order of the nodes -/

theorem keyLe_iff {a b : ℕ × String} : keyLe a b = true ↔ a.1 < b.1 ∨ a.1 = b.1 ∧ a.2 ≤ b.2 := by
  simp [keyLe]

/-- One node comes before another. -/
def Before {V : Type} (a b : String × V) : Prop :=
  keyLe (nodeSortKey a.1) (nodeSortKey b.1) = true ∧ a.1 ≠ b.1

theorem keyLe_total (a b : ℕ × String) : keyLe a b = true ∨ keyLe b a = true := by
  rw [keyLe_iff, keyLe_iff]
  rcases Nat.lt_trichotomy a.1 b.1 with h | h | h
  · exact .inl (.inl h)
  · rcases le_total a.2 b.2 with h' | h'
    · exact .inl (.inr ⟨h, h'⟩)
    · exact .inr (.inr ⟨h.symm, h'⟩)
  · exact .inr (.inl h)

theorem keyLe_trans {a b c : ℕ × String} (hab : keyLe a b = true) (hbc : keyLe b c = true) :
    keyLe a c = true := by
  rw [keyLe_iff] at hab hbc ⊢
  rcases hab with hab | ⟨hab, hab'⟩
  · left
    rcases hbc with hbc | ⟨hbc, -⟩ <;> omega
  · rcases hbc with hbc | ⟨hbc, hbc'⟩
    · left
      omega
    · exact .inr ⟨hab.trans hbc, hab'.trans hbc'⟩

theorem keyLe_antisymm {a b : ℕ × String} (hab : keyLe a b = true) (hba : keyLe b a = true) :
    a = b := by
  rw [keyLe_iff] at hab hba
  have hfst : a.1 = b.1 := by omega
  refine Prod.ext hfst ?_
  rcases hab with hab | ⟨-, hab⟩
  · omega
  · rcases hba with hba | ⟨-, hba⟩
    · omega
    · exact le_antisymm hab hba

theorem not_before_of_before {V : Type} {a b : String × V} (hab : Before a b) : ¬ Before b a := by
  intro hba
  exact hab.2 (congrArg Prod.snd (keyLe_antisymm hab.1 hba.1))

/-- Lists of nodes in order are equal when they have the same members. -/
theorem eq_of_before {V : Type} {l₁ l₂ : List (String × V)} (h₁ : l₁.Pairwise Before)
    (h₂ : l₂.Pairwise Before) (h : ∀ e, e ∈ l₁ ↔ e ∈ l₂) : l₁ = l₂ := by
  have hnodup : ∀ l : List (String × V), l.Pairwise Before → l.Nodup := fun l hl =>
    hl.imp fun hab => ne_of_apply_ne Prod.fst hab.2
  refine List.Perm.eq_of_pairwise (fun a b _ _ hab hba => ?_) h₁ h₂ ?_
  · exact absurd hba (not_before_of_before hab)
  · exact (List.perm_ext_iff_of_nodup (hnodup _ h₁) (hnodup _ h₂)).mpr h

theorem byNode_pairwise {peers : List (String × Json)}
    (hnames : peers.Pairwise fun a b => a.1 ≠ b.1) : (byNode peers).Pairwise Before := by
  have : Std.Total fun a b : String × Json => keyLe (nodeSortKey a.1) (nodeSortKey b.1) = true :=
    ⟨fun a b => keyLe_total _ _⟩
  have : IsTrans (String × Json) fun a b => keyLe (nodeSortKey a.1) (nodeSortKey b.1) = true :=
    ⟨fun a b c => keyLe_trans⟩
  have hsorted := List.pairwise_insertionSort
    (fun a b : String × Json => keyLe (nodeSortKey a.1) (nodeSortKey b.1) = true) peers
  have hne : (byNode peers).Pairwise fun a b => a.1 ≠ b.1 :=
    (List.perm_insertionSort _ peers).symm.pairwise hnames fun h => h.symm
  exact hsorted.and hne

/-- The peers with an ip stand in the order of their nodes. -/
theorem sortedPeers_pairwise {peers : List (String × Json)} {ips : List (String × String)}
    (hnames : peers.Pairwise fun a b => a.1 ≠ b.1) (h : sortedPeers peers = .ok ips) :
    ips.Pairwise Before := by
  rw [withIps_ok h]
  refine (byNode_pairwise hnames).filterMap _ ?_
  intro a a' hab b hb b' hb'
  obtain ⟨ip, -, rfl⟩ := Option.map_eq_some_iff.mp hb
  obtain ⟨ip', -, rfl⟩ := Option.map_eq_some_iff.mp hb'
  exact hab

theorem withIps_objects {peers : List (String × Json)}
    (h : ∀ e ∈ peers, ∃ fields, e.2 = .obj fields) : ∃ ips, withIps peers = .ok ips := by
  induction peers with
  | nil => exact ⟨[], rfl⟩
  | cons e rest ih =>
      obtain ⟨name, info⟩ := e
      obtain ⟨fields, hinfo⟩ := h (name, info) List.mem_cons_self
      obtain ⟨ips, hips⟩ := ih fun e he => h e (List.mem_cons_of_mem _ he)
      cases hinfo
      simp only [withIps, infoGet, hips, bind, Except.bind]
      exact ⟨_, rfl⟩

theorem sortedPeers_objects {peers : List (String × Json)}
    (h : ∀ e ∈ peers, ∃ fields, e.2 = .obj fields) : ∃ ips, sortedPeers peers = .ok ips :=
  withIps_objects fun e he => h e ((List.mem_insertionSort _).mp he)

end MilvusOnprem.OrderedPeers
