import Ceph.Mon.Elector

set_option autoImplicit false

/-! # Proposals of a peer that lacks what is required

`handle_propose` looks at three things before the ranks are compared: the features of the
connection, the release of the peer and its monitor features. A peer that fails one of them is
refused with a `NAK`. The first two checks return; the third does not, and the proposal is then
answered by rank like any other.
-/

namespace Ceph.Mon

/-- A peer that lacks a required quorum feature, the required minimum release or a required monitor
feature. -/
def Caps.Lacks (required caps : Caps) : Prop :=
  (required.features ^^^ caps.features) &&& required.features ≠ 0 ∨
    caps.release < required.release ∨
    caps.monFeatures &&& required.monFeatures ≠ required.monFeatures

namespace Monitor

variable {n : ℕ}

/-- **A message changes nothing about the election**: the elector is as it was, the monitor has not
called an election, and if anything was sent it is a refusal, so no peer was deferred to. -/
structure Unmoved (m m' : Monitor n) : Prop where
  epoch : m'.epoch = m.epoch
  leaderAcked : m'.leaderAcked = m.leaderAcked
  electingMe : m'.electingMe = m.electingMe
  ackedMe : m'.ackedMe = m.ackedMe
  state : m'.state = m.state
  sent : ∃ msgs, m'.out = m.out ++ msgs ∧ ∀ p ∈ msgs, ∃ e, p.2 = .nak e

/-- A proposal is ignored. -/
def Ignored (m : Monitor n) (r : Except Assertion (Monitor n)) : Prop :=
  ∃ m', r = .ok m' ∧ Unmoved m m'

/-- The monitor would do nothing about a proposal of this rank: it has acknowledged a better one,
or it wins over the peer and stands for election already. One that does not participate starts no
election, and is left as it was if it was electing. -/
def Stays (rank : Fin n) (m : Monitor n) (src : Fin n) : Prop :=
  match m.leaderAcked with
  | some l => l < src
  | none => rank < src ∧
      (m.electingMe = true ∨ m.participating = false ∧ m.state = .electing)

theorem unmoved_send_nak (m : Monitor n) (e : ℕ) (dst : Fin n) :
    Unmoved m (m.send (.nak e) dst) := by
  refine ⟨rfl, rfl, rfl, rfl, rfl, [(dst, .nak e)], rfl, ?_⟩
  intro p hp
  exact ⟨e, by rw [List.mem_singleton.mp hp]⟩

theorem not_unmoved_defer (m₀ : Monitor n) {m : Monitor n} (hm : Unmoved m₀ m) (who : Fin n) :
    ¬ Unmoved m₀ (m.defer who) := by
  intro h
  obtain ⟨msgs, hout, hnak⟩ := h.sent
  obtain ⟨msgs₀, hout₀, -⟩ := hm.sent
  have hlast : (m.defer who).out = m₀.out ++ (msgs₀ ++ [(who, .ack m.epoch m.caps)]) := by
    rw [← List.append_assoc, ← hout₀]
    unfold defer
    cases m.electingMe with
    | false => rfl
    | true => rfl
  have hmem : (who, .ack m.epoch m.caps) ∈ msgs := by
    rw [List.append_cancel_left (hout.symm.trans hlast)]
    exact List.mem_append_right _ List.mem_cons_self
  obtain ⟨e, he⟩ := hnak _ hmem
  cases he

theorem electingMe_of_start {rank : Fin n} {m m' : Monitor n} (hpart : m.participating = true)
    (h : start rank m = .ok m') : m'.electingMe = true := by
  rw [start, if_pos hpart] at h
  cases hcycle : electionCycle { m with ackedMe := ∅ } with
  | error a =>
    rw [hcycle] at h
    cases h
  | ok m₁ =>
    rw [hcycle] at h
    cases h
    rfl

/-- Calling an election moves the monitor, unless it does not participate. -/
theorem ignored_startElection_iff {rank : Fin n} {m₀ m : Monitor n} (hm : Unmoved m₀ m)
    (hnot : m.electingMe = false) (hpart : m.participating = m₀.participating) :
    Ignored m₀ (startElection rank m) ↔ m₀.participating = false ∧ m₀.state = .electing := by
  rw [← hpart]
  constructor
  · rintro ⟨m', hok, h⟩
    rw [startElection] at hok
    cases hp : m.participating with
    | true =>
      have htrue := electingMe_of_start (m := { m with state := .electing, quorum := ∅ }) hp hok
      rw [h.electingMe, ← hm.electingMe, hnot] at htrue
      cases htrue
    | false =>
      rw [start, if_neg (by simp [hp])] at hok
      cases hok
      exact ⟨rfl, h.state.symm⟩
  · rintro ⟨hp, hstate⟩
    refine ⟨{ m with state := .electing, quorum := ∅ }, ?_, hm.epoch, hm.leaderAcked,
      hm.electingMe, hm.ackedMe, hstate.symm, hm.sent⟩
    rw [startElection, start, if_neg (by simp [hp])]

/-- **Ranks are compared without effect exactly when the monitor stays.** -/
theorem ignored_proposeRanks_iff {rank : Fin n} {m₀ m : Monitor n} (hm : Unmoved m₀ m)
    (hpart : m.participating = m₀.participating) (src : Fin n) :
    Ignored m₀ (proposeRanks rank m src) ↔ Stays rank m₀ src := by
  rw [Stays, proposeRanks, ← hm.leaderAcked]
  by_cases hrank : rank < src
  · rw [if_pos hrank]
    cases hl : m.leaderAcked with
    | some l =>
      by_cases hlt : l < src
      · simp only [if_pos hlt]
        exact ⟨fun _ => hlt, fun _ => ⟨m, rfl, hm⟩⟩
      · simp only [if_neg hlt]
        refine ⟨?_, fun h => absurd h hlt⟩
        rintro ⟨m', hok, -⟩
        cases hok
    | none =>
      cases he : m.electingMe with
      | true =>
        simp only [if_pos]
        refine ⟨fun _ => ⟨hrank, .inl ?_⟩, fun _ => ⟨m, rfl, hm⟩⟩
        rw [← hm.electingMe, he]
      | false =>
        simp only [Bool.false_eq_true, if_false]
        rw [ignored_startElection_iff hm he hpart, ← hm.electingMe, he]
        refine ⟨fun h => ⟨hrank, .inr h⟩, ?_⟩
        rintro ⟨-, hfalse | h⟩
        · cases hfalse
        · exact h
  · rw [if_neg hrank]
    have hdefer : ¬ Ignored m₀ (.ok (m.defer src)) := by
      rintro ⟨m', hok, h⟩
      cases hok
      exact not_unmoved_defer m₀ hm src h
    cases hl : m.leaderAcked with
    | none => exact ⟨fun h => absurd h hdefer, fun h => absurd h.1 hrank⟩
    | some l =>
      by_cases hle : src ≤ l
      · simp only [if_pos hle]
        exact ⟨fun h => absurd h hdefer, fun h => absurd h (not_lt.mpr hle)⟩
      · simp only [if_neg hle]
        exact ⟨fun _ => not_le.mp hle, fun _ => ⟨m, rfl, hm⟩⟩

/-- **The gate**: a proposal of a peer that lacks something required is ignored exactly when a
check that returns refuses it, or the ranks would have had no effect. -/
theorem handlePropose_ignored_iff (rank : Fin n) (m : Monitor n) (src : Fin n) (epoch : ℕ)
    (caps : Caps) (hlacks : m.required.Lacks caps) :
    Ignored m (handlePropose rank m src epoch caps) ↔
      epoch % 2 = 1 ∧ ((m.required.features ^^^ caps.features) &&& m.required.features ≠ 0 ∨
        caps.release < m.required.release ∨ Stays rank m src) := by
  have hnak := unmoved_send_nak m epoch src
  rw [handlePropose]
  by_cases hodd : epoch % 2 = 1
  · rw [if_neg (not_not.mpr hodd)]
    by_cases hfeat : (m.required.features ^^^ caps.features) &&& m.required.features ≠ 0
    · rw [if_pos hfeat]
      exact ⟨fun _ => ⟨hodd, .inl hfeat⟩, fun _ => ⟨_, rfl, hnak⟩⟩
    · rw [if_neg hfeat]
      by_cases hrel : caps.release < m.required.release
      · rw [if_pos hrel]
        exact ⟨fun _ => ⟨hodd, .inr (.inl hrel)⟩, fun _ => ⟨_, rfl, hnak⟩⟩
      · have hmon : caps.monFeatures &&& m.required.monFeatures ≠ m.required.monFeatures :=
          (hlacks.resolve_left hfeat).resolve_left hrel
        rw [if_neg hrel, if_pos hmon, ignored_proposeRanks_iff hnak rfl src]
        refine ⟨fun h => ⟨hodd, .inr (.inr h)⟩, ?_⟩
        rintro ⟨-, h | h | h⟩
        · exact absurd h hfeat
        · exact absurd h hrel
        · exact h
  · rw [if_pos hodd]
    refine ⟨?_, fun h => absurd h.1 hodd⟩
    rintro ⟨m', hok, -⟩
    cases hok

/-- A monitor in the first election, which requires the first monitor feature. -/
def requiringFeature (electing : Bool) (acked : Finset (Fin 2)) : Monitor 2 :=
  { stored := 0, caps := ⟨0, 1, 14⟩, required := ⟨0, 1, 14⟩, hasEverJoined := false,
    state := .electing, quorum := ∅, epoch := 1, participating := true, electingMe := electing,
    ackedMe := acked, leaderAcked := none, timer := true, out := [], adopted := [] }

/-- Monitor `0` stands for election and refuses monitor `1`, which lacks the feature. -/
theorem handlePropose_ignored_zero :
    Ignored (requiringFeature true {0})
      (handlePropose 0 (requiringFeature true {0}) 1 1 ⟨0, 0, 14⟩) :=
  (handlePropose_ignored_iff 0 (requiringFeature true {0}) 1 1 ⟨0, 0, 14⟩
    (.inr (.inr (by decide)))).mpr ⟨rfl, .inr (.inr ⟨by decide, .inl rfl⟩)⟩

/-- Monitor `1` refuses monitor `0`, which lacks the feature, and defers to it; monitor `0`, which
does not stand for election yet, refuses monitor `1` and starts an election. -/
theorem handlePropose_moves_for_lacking :
    (requiringFeature true {1}).required.Lacks ⟨0, 0, 14⟩ ∧
      ((handlePropose 1 (requiringFeature true {1}) 0 1 ⟨0, 0, 14⟩).toOption.map fun m =>
        (m.leaderAcked, m.electingMe, m.ackedMe, m.out)) =
        some (some 0, false, ∅, [(0, .nak 1), (0, .ack 1 ⟨0, 1, 14⟩)]) ∧
      ((handlePropose 0 (requiringFeature false ∅) 1 1 ⟨0, 0, 14⟩).toOption.map fun m =>
        (m.electingMe, m.ackedMe, m.out)) =
        some (true, {0}, [(1, .nak 1), (1, .propose 1 ⟨0, 1, 14⟩)]) := by
  refine ⟨.inr (.inr (by decide)), by decide, by decide⟩

end Monitor

end Ceph.Mon
