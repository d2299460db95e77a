import Ceph.Lib.Transition
import Ceph.Mon.Elector

set_option autoImplicit false

/-! # Safety of the election

Elections are safe because a monitor adopts a leader only while it goes from an odd epoch to the
next one, and has stored the new epoch before it does: it never adopts twice in one epoch, across
restarts too. Two quorums of one epoch share a monitor, so at most one of two leaders has the
whole of its quorum.

The invariant has a part that every function of the elector keeps (`Core`), a part that holds
between two handlers (`Settled`), and what the handlers may send and adopt (`Effect`). The rank
assertions follow: a monitor only ever acknowledges lower ranks, so victories go to higher ones. All
this is as long as no epoch overflows: an action is safe as long as no monitor has stored the last
epoch (`Young`), since messages carry epochs that their senders have stored.
-/

namespace Ceph.Mon

open Function Option List

variable {n : ℕ}

/-! ## The invariant of one monitor -/

/-- **What every function keeps.** The epoch of a running elector is the stored one, or `1` if
none is stored; `0` means that the store has not been read yet. -/
structure Core (rank : Fin n) (m : Monitor n) : Prop where
  epoch : m.epoch = 0 ∨ m.epoch = max m.stored 1
  electing : m.electingMe = true → rank ∈ m.ackedMe ∧ m.epoch % 2 = 1
  acked : ∀ p ∈ m.ackedMe, rank ≤ p
  leader : ∀ l, m.leaderAcked = some l → l < rank

/-- **What holds between two handlers.** A monitor that handles elections has read its epoch, and
in an odd epoch it either stands for election or has acknowledged someone. -/
structure Settled (m : Monitor n) : Prop where
  idle : m.epoch = 0 → m.state = .probing ∨ m.participating = false
  waiting : m.participating = true → m.state ≠ .probing → m.epoch % 2 = 1 →
    m.electingMe = true ∨ m.leaderAcked.isSome = true

/-- A majority of the monmap, with the leader among it. -/
structure Declared (leader : Fin n) (quorum : Finset (Fin n)) : Prop where
  mem : leader ∈ quorum
  majority : n < 2 * quorum.card

theorem Declared.inter {l l' : Fin n} {q q' : Finset (Fin n)} (h : Declared l q)
    (h' : Declared l' q') : ∃ r, r ∈ q ∧ r ∈ q' := by
  have hcard : (Finset.univ : Finset (Fin n)).card < q.card + q'.card := by
    have := h.majority
    have := h'.majority
    rw [Finset.card_fin]
    omega
  obtain ⟨r, hr⟩ := Finset.inter_nonempty_of_card_lt_card_add_card (Finset.subset_univ q)
    (Finset.subset_univ q') hcard
  exact ⟨r, Finset.mem_inter.mp hr⟩

/-- What a message under way looks like. -/
def MsgOk (src dst : Fin n) : ElectionMsg n → Prop
  | .propose e _ => src ≠ dst ∧ e % 2 = 1
  | .ack _ _ => dst < src
  | .victory e q => src < dst ∧ e % 2 = 0 ∧ Declared src q
  | .nak _ => src ≠ dst

/-- The epoch that a message can bump its receiver to. -/
def ElectionMsg.bumps : ElectionMsg n → ℕ
  | .propose e _ => e
  | .ack e _ => e
  | .victory e _ => e
  | .nak _ => 0

/-- A message that a monitor with this store may have under way. -/
def SentOk (stored : ℕ) (src dst : Fin n) (msg : ElectionMsg n) : Prop :=
  MsgOk src dst msg ∧ msg.bumps ≤ max stored 1

theorem SentOk.mono {stored stored' : ℕ} {src dst : Fin n} {msg : ElectionMsg n}
    (h : SentOk stored src dst msg) (hle : stored ≤ stored') : SentOk stored' src dst msg :=
  ⟨h.1, h.2.trans (max_le_max_right 1 hle)⟩

/-- **The last epoch**, from which there is no next one. -/
def lastEpoch : ℕ := 2 ^ 32 - 1

theorem nextEpoch_eq {e : ℕ} (h : e < lastEpoch) : nextEpoch e = e + 1 := by
  rw [lastEpoch] at h
  exact Nat.mod_eq_of_lt (by omega)

/-- A function that adopts no leader. -/
structure Quiet (rank : Fin n) (m m' : Monitor n) : Prop where
  core : Core rank m'
  stored : m.stored ≤ m'.stored
  out : ∀ p ∈ m'.out, p ∈ m.out ∨ SentOk m'.stored rank p.1 p.2
  adopted : m'.adopted = m.adopted

theorem Quiet.refl {rank : Fin n} {m : Monitor n} (h : Core rank m) : Quiet rank m m :=
  ⟨h, le_rfl, fun _ hp => .inl hp, rfl⟩

theorem Quiet.trans {rank : Fin n} {m m' m'' : Monitor n} (h : Quiet rank m m')
    (h' : Quiet rank m' m'') : Quiet rank m m'' where
  core := h'.core
  stored := h.stored.trans h'.stored
  out p hp := (h'.out p hp).elim
    (fun hp => (h.out p hp).imp_right fun hok => hok.mono h'.stored) .inr
  adopted := h'.adopted.trans h.adopted

/-- A new adoption: in an even epoch beyond the stored one. -/
structure AdoptsOk (rank : Fin n) (m m' : Monitor n) (a : Adoption n) : Prop where
  who : a.who = rank
  even : a.epoch % 2 = 0
  later : m.stored < a.epoch
  stored : a.epoch ≤ m'.stored
  declared : Declared a.leader a.quorum

/-- **What a handler does.** -/
structure Effect (rank : Fin n) (m m' : Monitor n) : Prop where
  core : Core rank m'
  settled : Settled m'
  stored : m.stored ≤ m'.stored
  out : ∀ p ∈ m'.out, p ∈ m.out ∨ SentOk m'.stored rank p.1 p.2
  adopted : m'.adopted = m.adopted ∨ ∃ a, m'.adopted = m.adopted ++ [a] ∧ AdoptsOk rank m m' a

variable {a b : Adoption n} {r : Except Assertion (Monitor n)} {src : Fin n}

namespace Monitor

variable {rank : Fin n} {m m₁ : Monitor n}

/-- **A handler that adopts no leader.** -/
def Calm (rank : Fin n) (m : Monitor n) (r : Except Assertion (Monitor n)) : Prop :=
  ∃ m', r = .ok m' ∧ Quiet rank m m' ∧ Settled m'

theorem Calm.after (h : Quiet rank m m₁) (hr : Calm rank m₁ r) : Calm rank m r := by
  obtain ⟨m', heq, hquiet, hsettled⟩ := hr
  exact ⟨m', heq, h.trans hquiet, hsettled⟩

theorem electionCycle_spec (m : Monitor n) (hyoung : m.stored < lastEpoch) (hacked : m.ackedMe = ∅) :
    ∃ m', m.electionCycle = .ok m' ∧ m'.epoch % 2 = 1 ∧ m'.epoch = max m'.stored 1 ∧
      m.stored ≤ m'.stored ∧ m'.ackedMe = ∅ ∧ m'.out = m.out ∧ m'.adopted = m.adopted := by
  rw [electionCycle]
  by_cases h0 : m.stored = 0
  · have hinit : m.init = { m with epoch := 1 } := by rw [init, if_pos h0]
    rw [hinit, if_neg (by simp)]
    exact ⟨_, rfl, rfl, by simp [h0], le_rfl, hacked, rfl, rfl⟩
  · -- a stored epoch is even after `init`, and the next one is odd
    have hinit : m.init.epoch % 2 = 0 ∧ m.stored ≤ m.init.epoch ∧
        m.init.epoch ≤ m.stored + m.stored % 2 ∧ m.init.out = m.out ∧
        m.init.adopted = m.adopted := by
      rw [init, if_neg h0, nextEpoch_eq hyoung]
      split_ifs with h1
      · exact ⟨by simp only; omega, Nat.le_succ _, by simp only; omega, rfl, rfl⟩
      · exact ⟨by simp only; omega, le_rfl, by simp only; omega, rfl, rfl⟩
    obtain ⟨heven, hle, hlt, hout, hadopted⟩ := hinit
    have hyoung' : m.init.epoch < lastEpoch := by
      rw [lastEpoch] at hyoung ⊢
      omega
    rw [if_pos heven, nextEpoch_eq hyoung', bumpEpoch, if_neg (by omega)]
    refine ⟨_, rfl, ?_, ?_, ?_, rfl, hout, hadopted⟩
    · show (m.init.epoch + 1) % 2 = 1
      omega
    · show m.init.epoch + 1 = max (m.init.epoch + 1) 1
      omega
    · exact hle.trans (Nat.le_succ _)

/-- What a handler may end with: an effect, or the one assertion that can fail. It takes an
acknowledgement in an even epoch, and only a monitor that has refused a proposal sends one. -/
def Outcome (rank : Fin n) (m : Monitor n) : Except Assertion (Monitor n) → Prop
  | .ok m' => Effect rank m m'
  | .error a => a = .ackParity

theorem Calm.outcome (h : Calm rank m r) : Outcome rank m r := by
  obtain ⟨m', rfl, hquiet, hsettled⟩ := h
  exact ⟨hquiet.core, hsettled, hquiet.stored, hquiet.out, .inl hquiet.adopted⟩

/-- Of the monitor before, only the store and what it has to send and to note matter. -/
theorem Outcome.of_eq {m₀ : Monitor n} (h : Outcome rank m r) (hstored : m.stored = m₀.stored)
    (hout : m.out = m₀.out) (hadopted : m.adopted = m₀.adopted) : Outcome rank m₀ r := by
  cases r with
  | error a => exact h
  | ok m' =>
    have h : Effect rank m m' := h
    refine ⟨h.core, h.settled, hstored ▸ h.stored, hout ▸ h.out, ?_⟩
    rw [← hadopted]
    rcases h.adopted with h' | ⟨a, ha, hok⟩
    · exact .inl h'
    · exact .inr ⟨a, ha, hok.who, hok.even, hstored ▸ hok.later, hok.stored, hok.declared⟩

theorem fresh_settled (rank : Fin n) (m : Monitor n) : Core rank m.fresh ∧ Settled m.fresh :=
  ⟨⟨.inl rfl, by simp [fresh], by simp [fresh], by simp [fresh]⟩,
    fun _ => .inl rfl, fun _ hne => absurd rfl hne⟩

theorem fresh_outcome (hadopted : m.adopted = []) : Outcome rank m (.ok m.fresh) :=
  ⟨(fresh_settled rank m).1, (fresh_settled rank m).2, le_rfl, by simp [fresh],
    .inl (by rw [hadopted]; rfl)⟩

section Handlers

variable (h : Core rank m)

include h

theorem Calm.self (hs : Settled m) : Calm rank m (.ok m) :=
  ⟨m, rfl, Quiet.refl h, hs⟩

theorem send_quiet {msg : ElectionMsg n} {dst : Fin n}
    (hmsg : SentOk m.stored rank dst msg) : Quiet rank m (m.send msg dst) where
  core := ⟨h.epoch, h.electing, h.acked, h.leader⟩
  stored := le_rfl
  out := forall_mem_append.mpr ⟨fun _ => .inl, forall_mem_singleton.mpr (.inr hmsg)⟩
  adopted := rfl

theorem stored_le_epoch (h0 : m.epoch ≠ 0) : m.stored ≤ m.epoch := by
  rcases h.epoch with h' | h'
  · exact absurd h' h0
  · omega

theorem epoch_lt (hyoung : m.stored < lastEpoch) : m.epoch < lastEpoch := by
  rw [lastEpoch] at hyoung ⊢
  rcases h.epoch with h' | h' <;> omega

/-- **`bump_epoch`**, to an epoch that is not below the monitor's own. -/
theorem bumpEpoch_spec {e : ℕ} (hle : m.epoch ≤ e) (hstored : m.stored ≤ e)
    (hpos : 0 < e) : ∃ m', m.bumpEpoch e = .ok m' ∧ Quiet rank m m' ∧ m'.epoch = e ∧
      m'.stored = e ∧ m'.state = .electing ∧ m'.participating = m.participating ∧
      m'.electingMe = false ∧ m'.leaderAcked = m.leaderAcked ∧ m'.out = m.out := by
  rw [bumpEpoch, if_neg (not_lt.mpr hle)]
  refine ⟨_, rfl, ⟨⟨.inr (by show e = max e 1; omega), by simp, by simp, h.leader⟩,
    hstored, fun _ hp => .inl hp, rfl⟩, rfl, rfl, rfl, rfl, rfl, rfl, rfl⟩

/-- **`start`** never fails, and the monitor stands for election afterwards, if it takes part. -/
theorem start_calm (hyoung : m.stored < lastEpoch) : Calm rank m (start rank m) := by
  rw [start]
  split_ifs with hpart
  · obtain ⟨m₁, heq, hodd, hepoch, hstored, hacked, hout, hadopted⟩ :=
      electionCycle_spec { m with ackedMe := ∅ } hyoung rfl
    rw [heq]
    refine ⟨_, rfl, ⟨⟨.inr hepoch, fun _ => ⟨?_, hodd⟩, ?_, by simp⟩, hstored, ?_, hadopted⟩,
      fun h0 => ?_, fun _ _ _ => .inl rfl⟩
    · exact Finset.mem_insert_self rank m₁.ackedMe
    · intro p hp
      rw [hacked] at hp
      exact (Finset.mem_singleton.mp hp).ge
    · intro p hp
      rcases mem_append.mp hp with hp | hp
      · rw [hout] at hp
        exact .inl hp
      · obtain ⟨i, hi, rfl⟩ := mem_map.mp hp
        exact .inr ⟨⟨Ne.symm (by simpa using hi), hodd⟩, hepoch.le⟩
    · have h0 : m₁.epoch = 0 := h0
      omega
  · have hpart : m.participating = false := by simpa using hpart
    exact .self h ⟨fun _ => .inr hpart, fun hp => absurd hp (by simp [hpart])⟩

theorem startElection_calm (hyoung : m.stored < lastEpoch) :
    Calm rank m (startElection rank m) := by
  have hcore : Core rank { m with state := .electing, quorum := ∅ } :=
    ⟨h.epoch, h.electing, h.acked, h.leader⟩
  exact .after ⟨hcore, le_rfl, fun _ hp => .inl hp, rfl⟩ (start_calm hcore hyoung)

theorem defer_spec {who : Fin n} (hwho : who < rank)
    (hidle : m.epoch = 0 → m.state = .probing ∨ m.participating = false) :
    Quiet rank m (m.defer who) ∧ Settled (m.defer who) := by
  have hcore : Core rank (m.defer who) := by
    rw [defer]
    split_ifs with he
    · exact ⟨h.epoch, by simp [send], by simp [send], by simpa [send] using hwho⟩
    · exact ⟨h.epoch, by simp [send, he], h.acked, by simpa [send] using hwho⟩
  have hfields : (m.defer who).epoch = m.epoch ∧ (m.defer who).state = m.state ∧
      (m.defer who).participating = m.participating ∧ (m.defer who).stored = m.stored ∧
      (m.defer who).adopted = m.adopted ∧ (m.defer who).leaderAcked = some who ∧
      (m.defer who).out = m.out ++ [(who, .ack m.epoch m.caps)] := by
    rw [defer]
    split_ifs <;> exact ⟨rfl, rfl, rfl, rfl, rfl, rfl, rfl⟩
  obtain ⟨hepoch, hstate, hpart, hstored, hadopted, hleader, hout⟩ := hfields
  refine ⟨⟨hcore, hstored.ge, ?_, hadopted⟩, ?_, fun _ _ _ => .inr (by rw [hleader]; rfl)⟩
  · rw [hout]
    have hack : m.epoch ≤ max (m.defer who).stored 1 := by
      rcases h.epoch with h' | h' <;> omega
    exact forall_mem_append.mpr ⟨fun _ => .inl, forall_mem_singleton.mpr (.inr ⟨hwho, hack⟩)⟩
  · rw [hepoch, hstate, hpart]
    exact hidle

/-- **The end of `handle_propose`**: no rank assertion fails, since a monitor only ever
acknowledges a lower rank than its own. -/
theorem proposeRanks_calm (hyoung : m.stored < lastEpoch) (hsrc : src ≠ rank)
    (hidle : m.epoch = 0 → m.state = .probing ∨ m.participating = false) :
    Calm rank m (proposeRanks rank m src) := by
  have hacked : ∀ l, m.leaderAcked = some l → Settled m := fun l hl =>
    ⟨hidle, fun _ _ _ => .inr (by rw [hl]; rfl)⟩
  rw [proposeRanks]
  by_cases hlt : rank < src
  · rw [if_pos hlt]
    cases hl : m.leaderAcked with
    | some l =>
      simp only
      rw [if_pos ((h.leader l hl).trans hlt)]
      exact .self h (hacked l hl)
    | none =>
      simp only
      split_ifs with he
      · exact .self h ⟨hidle, fun _ _ _ => .inl he⟩
      · exact startElection_calm h hyoung
  · rw [if_neg hlt]
    have hwho : src < rank := lt_of_le_of_ne (not_lt.mp hlt) hsrc
    cases hl : m.leaderAcked with
    | none => exact ⟨_, rfl, defer_spec h hwho hidle⟩
    | some l =>
      simp only
      split_ifs
      · exact ⟨_, rfl, defer_spec h hwho hidle⟩
      · exact .self h (hacked l hl)

/-- **`handle_propose`.** -/
theorem handlePropose_calm (hyoung : m.stored < lastEpoch) (hs : Settled m) (h0 : m.epoch ≠ 0)
    (hsrc : src ≠ rank) {epoch : ℕ} (hodd : epoch % 2 = 1) (hlast : epoch < lastEpoch)
    (caps : Caps) :
    Calm rank m (handlePropose rank m src epoch caps) := by
  have hnak : Quiet rank m (m.send (.nak epoch) src) := send_quiet h ⟨hsrc.symm, Nat.zero_le _⟩
  have hnak' : Settled (m.send (.nak epoch) src) := ⟨hs.idle, hs.waiting⟩
  rw [handlePropose, if_neg (not_not.mpr hodd)]
  split_ifs with h1 h2 h3 h4 h5 h6
  · exact ⟨_, rfl, hnak, hnak'⟩
  · exact ⟨_, rfl, hnak, hnak'⟩
  · -- refused, but treated like any other
    exact .after hnak (proposeRanks_calm hnak.core hyoung hsrc hnak'.idle)
  · have hle := stored_le_epoch h h0
    obtain ⟨m₁, hbump, hquiet, hepoch, hstored, -⟩ :=
      bumpEpoch_spec h h4.le (hle.trans h4.le) (by omega)
    rw [hbump]
    exact .after hquiet (proposeRanks_calm hquiet.core (hstored.trans_lt hlast) hsrc
      fun h0' => absurd h0' (by omega))
  · exact startElection_calm h hyoung
  · exact .self h hs
  · exact proposeRanks_calm h hyoung hsrc hs.idle

/-- **`victory`** of a monitor with a majority. -/
theorem victory_spec (hyoung : m.stored < lastEpoch) (hmem : rank ∈ m.ackedMe)
    (hodd : m.epoch % 2 = 1) (hmaj : n < 2 * m.ackedMe.card) :
    ∃ m', victory rank m = .ok m' ∧ Effect rank m m' := by
  have hle := stored_le_epoch h (by omega)
  have hnext : nextEpoch m.epoch = m.epoch + 1 := nextEpoch_eq (epoch_lt h hyoung)
  have hcore : Core rank { m with leaderAcked := none, electingMe := false, timer := false } :=
    ⟨h.epoch, by simp, h.acked, by simp⟩
  obtain ⟨m₁, hbump, hquiet, hepoch, hstored, -, -, hme, hleader, hout⟩ :=
    bumpEpoch_spec hcore (Nat.le_succ m.epoch) (hle.trans (Nat.le_succ _)) (Nat.succ_pos _)
  rw [victory, if_neg (not_not.mpr hodd), hnext, hbump]
  refine ⟨_, rfl, ⟨hquiet.core.epoch, hquiet.core.electing, hquiet.core.acked,
    hquiet.core.leader⟩, ⟨fun h0 => ?_, fun _ _ hodd' => ?_⟩, hquiet.stored, ?_, .inr
    ⟨⟨rank, m₁.epoch, rank, m.ackedMe⟩, by rw [hquiet.adopted], rfl, ?_, ?_, ?_, hmem, hmaj⟩⟩
  · have h0 : m₁.epoch = 0 := h0
    omega
  · have hodd' : m₁.epoch % 2 = 1 := hodd'
    omega
  · intro p hp
    rcases mem_append.mp hp with hp | hp
    · rw [hout] at hp
      exact .inl hp
    · -- victories go to the monitors that acknowledged this one
      obtain ⟨i, hi, rfl⟩ := mem_map.mp hp
      simp only [mem_filter, mem_finRange, true_and, decide_eq_true_eq] at hi
      refine .inr ⟨⟨lt_of_le_of_ne (h.acked i hi.1) (Ne.symm hi.2), by omega, hmem, hmaj⟩, ?_⟩
      show m₁.epoch ≤ max m₁.stored 1
      omega
  · show m₁.epoch % 2 = 0
    omega
  · show m.stored < m₁.epoch
    omega
  · show m₁.epoch ≤ m₁.stored
    omega

theorem outcome_self (hs : Settled m) : Outcome rank m (.ok m) :=
  (Calm.self h hs).outcome

theorem outcome_victory (hyoung : m.stored < lastEpoch) (hmem : rank ∈ m.ackedMe)
    (hodd : m.epoch % 2 = 1) (hmaj : n < 2 * m.ackedMe.card) :
    Outcome rank m (victory rank m) := by
  obtain ⟨m', heq, heffect⟩ := victory_spec h hyoung hmem hodd hmaj
  rw [heq]
  exact heffect

theorem bump_start_calm {e : ℕ} (hle : m.epoch ≤ e) (hstored : m.stored ≤ e)
    (hpos : 0 < e) (hlast : e < lastEpoch) :
    Calm rank m (m.bumpEpoch e >>= fun m => start rank m) := by
  obtain ⟨m₁, hbump, hquiet, -, hstored₁, -⟩ := bumpEpoch_spec h hle hstored hpos
  rw [hbump]
  exact .after hquiet (start_calm hquiet.core (hstored₁.trans_lt hlast))

/-- **`handle_ack`**, from a higher rank. -/
theorem handleAck_outcome (hyoung : m.stored < lastEpoch) (hs : Settled m)
    (hpart : m.participating = true) (hstate : m.state ≠ .probing) (h0 : m.epoch ≠ 0)
    (hsrc : rank < src) {epoch : ℕ} (hepoch : m.epoch ≤ epoch) (hlast : epoch < lastEpoch)
    (caps : Caps) :
    Outcome rank m (handleAck rank m src epoch caps) := by
  have hle := stored_le_epoch h h0
  have hmem : m.electingMe = true → rank ∈ insert src m.ackedMe := fun he =>
    Finset.mem_insert_of_mem (h.electing he).1
  have hcore : Core rank { m with ackedMe := insert src m.ackedMe } := by
    refine ⟨h.epoch, fun he => ⟨hmem he, (h.electing he).2⟩, fun p hp => ?_, h.leader⟩
    rcases Finset.mem_insert.mp hp with rfl | hp
    · exact hsrc.le
    · exact h.acked p hp
  rw [handleAck]
  dsimp only
  by_cases hodd : epoch % 2 = 1
  · rw [if_neg (not_not.mpr hodd)]
    split_ifs with h1 h2 h3 h4 h5 h6
    · exact (bump_start_calm h h1.le (hle.trans h1.le) (by omega) hlast).outcome
    · exact outcome_self h hs
    · exact outcome_self h hs
    · -- everyone
      have hmaj : n < 2 * (insert src m.ackedMe).card := by
        omega
      exact (outcome_victory hcore hyoung (hmem h4) (h.electing h4).2 hmaj).of_eq rfl rfl rfl
    · exact (outcome_self hcore ⟨hs.idle, hs.waiting⟩).of_eq rfl rfl rfl
    · exact outcome_self h hs
    · -- the monitor has acknowledged someone itself
      have hsame : m.epoch = epoch := le_antisymm hepoch (not_lt.mp h1)
      rcases hs.waiting hpart hstate (hsame ▸ hodd) with hme | hacked
      · exact absurd hme h4
      · exact absurd hacked h6
  · rw [if_pos hodd]
    rfl

/-- **`handle_victory`**, from a lower rank: in the next epoch the monitor adopts the leader. -/
theorem handleVictory_outcome (hyoung : m.stored < lastEpoch) (h0 : m.epoch ≠ 0)
    (hsrc : src < rank) {epoch : ℕ} (hepoch : m.epoch ≤ epoch) (heven : epoch % 2 = 0)
    (hlast : epoch < lastEpoch) {quorum : Finset (Fin n)} (hquorum : Declared src quorum) :
    Outcome rank m (handleVictory rank m src epoch quorum) := by
  have hle := stored_le_epoch h h0
  have hcore : Core rank { m with leaderAcked := none } :=
    ⟨h.epoch, h.electing, h.acked, by simp⟩
  rw [handleVictory, if_neg (not_not.mpr hsrc), if_neg (not_not.mpr heven),
    nextEpoch_eq (epoch_lt h hyoung)]
  by_cases hnext : epoch = m.epoch + 1
  · obtain ⟨m₁, hbump, hquiet, hepoch₁, hstored₁, -⟩ :=
      bumpEpoch_spec hcore hepoch (hle.trans hepoch) (by omega)
    rw [if_neg (not_not.mpr hnext), hbump]
    refine ⟨⟨hquiet.core.epoch, hquiet.core.electing, hquiet.core.acked, hquiet.core.leader⟩,
      ⟨fun h0' => ?_, fun _ _ hodd => ?_⟩, hquiet.stored, hquiet.out,
      .inr ⟨⟨rank, m₁.epoch, src, quorum⟩, by rw [hquiet.adopted], rfl, ?_, ?_, ?_, hquorum⟩⟩
    · have h0' : m₁.epoch = 0 := h0'
      omega
    · have hodd : m₁.epoch % 2 = 1 := hodd
      omega
    · show m₁.epoch % 2 = 0
      omega
    · show m.stored < m₁.epoch
      omega
    · show m₁.epoch ≤ m₁.stored
      omega
  · rw [if_pos hnext]
    exact (bump_start_calm hcore hepoch (hle.trans hepoch) (by omega) hlast).outcome.of_eq
      rfl rfl rfl

/-- **`dispatch`** of a message under way. -/
theorem dispatch_outcome (hyoung : m.stored < lastEpoch) (hs : Settled m)
    (hadopted : m.adopted = []) {msg : ElectionMsg n} (hmsg : MsgOk src rank msg)
    (hlast : msg.bumps < lastEpoch) :
    Outcome rank m (dispatch rank m src msg) := by
  rw [dispatch.eq_def]
  by_cases hstate : m.state = .probing
  · rw [if_pos hstate]
    exact outcome_self h hs
  · rw [if_neg hstate]
    by_cases hpart : m.participating = true
    · rw [if_neg (not_not.mpr hpart)]
      have h0 : m.epoch ≠ 0 := by
        intro h0
        rcases hs.idle h0 with h' | h'
        · exact hstate h'
        · simp [hpart] at h'
      cases msg with
      | propose epoch caps =>
        exact (handlePropose_calm h hyoung hs h0 hmsg.1 hmsg.2 hlast caps).outcome
      | ack epoch caps =>
        dsimp only
        split_ifs with hold
        · exact outcome_self h hs
        · exact handleAck_outcome h hyoung hs hpart hstate h0 hmsg (not_lt.mp hold) hlast caps
      | victory epoch quorum =>
        dsimp only
        split_ifs with hold
        · exact outcome_self h hs
        · exact handleVictory_outcome h hyoung h0 hmsg.1 (not_lt.mp hold) hmsg.2.1 hlast hmsg.2.2
      | nak epoch =>
        dsimp only
        split_ifs
        · exact outcome_self h hs
        · exact fresh_outcome hadopted
    · rw [if_pos hpart]
      exact outcome_self h hs

/-- **`expire`**: a majority of acknowledgements makes a quorum. -/
theorem expire_outcome (hyoung : m.stored < lastEpoch) : Outcome rank m (expire rank m) := by
  have hcore : Core rank { m with timer := false } := ⟨h.epoch, h.electing, h.acked, h.leader⟩
  rw [expire]
  dsimp only
  split_ifs with hwin hjoined
  · exact (outcome_victory hcore hyoung (h.electing hwin.1).1 (h.electing hwin.1).2
      (by have := hwin.2; simp only; omega)).of_eq rfl rfl rfl
  · exact (start_calm hcore hyoung).outcome.of_eq rfl rfl rfl
  · exact ⟨⟨h.epoch, h.electing, h.acked, h.leader⟩,
      ⟨fun _ => .inl rfl, fun _ hne => absurd rfl hne⟩, le_rfl, fun _ hp => .inl hp,
      .inl rfl⟩

theorem quorumExit_outcome (hyoung : m.stored < lastEpoch) :
    Outcome rank m (quorumExit rank m) := by
  obtain ⟨m', heq, hquiet, -⟩ := startElection_calm h hyoung
  rw [quorumExit, heq]
  exact ⟨⟨hquiet.core.epoch, hquiet.core.electing, hquiet.core.acked, hquiet.core.leader⟩,
    ⟨fun _ => .inr rfl, fun hpart => absurd hpart (by simp)⟩, hquiet.stored, hquiet.out,
    .inl hquiet.adopted⟩

theorem quorumEnter_outcome (hyoung : m.stored < lastEpoch) :
    Outcome rank m (quorumEnter rank m) := by
  have hcore : Core rank { m with participating := true } :=
    ⟨h.epoch, h.electing, h.acked, h.leader⟩
  exact (startElection_calm hcore hyoung).outcome.of_eq rfl rfl rfl

theorem bootstrap_outcome : Outcome rank m (.ok m.bootstrap) :=
  ⟨⟨h.epoch, h.electing, h.acked, h.leader⟩,
    ⟨fun _ => .inl rfl, fun _ hne => absurd rfl hne⟩, le_rfl, fun _ hp => .inl hp, .inl rfl⟩

theorem configure_outcome (hs : Settled m) (required caps : Caps)
    (joined : Bool) : Outcome rank m (.ok (m.configure required caps joined)) :=
  ⟨⟨h.epoch, h.electing, h.acked, h.leader⟩, ⟨hs.idle, hs.waiting⟩, le_rfl,
    fun _ hp => .inl hp, .inl rfl⟩

end Handlers

end Monitor

namespace World

/-- **The invariant.** -/
structure Inv (w : World n) : Prop where
  core : ∀ r, Core r (w.mon r)
  settled : ∀ r, Settled (w.mon r)
  out : ∀ r, (w.mon r).out = []
  adopted : ∀ r, (w.mon r).adopted = []
  msgs : ∀ src dst, ∀ msg ∈ w.chan src dst, SentOk (w.mon src).stored src dst msg
  adoptions : ∀ a ∈ w.adoptions,
    a.epoch % 2 = 0 ∧ a.epoch ≤ (w.mon a.who).stored ∧ Declared a.leader a.quorum
  once : w.adoptions.Pairwise fun a b => a.who = b.who → a.epoch ≠ b.epoch
  failures : ∀ f ∈ w.failures, f = .ackParity

variable {w w' : World n}

theorem inv_of_initial (h : w.Initial) : w.Inv where
  core r := h.fresh r ▸ (Monitor.fresh_settled r (w.mon r)).1
  settled r := h.fresh r ▸ (Monitor.fresh_settled r (w.mon r)).2
  out r := by rw [h.fresh r]; rfl
  adopted r := by rw [h.fresh r]; rfl
  msgs src dst msg hmsg := by simp [h.chan] at hmsg
  adoptions a ha := by simp [h.adoptions] at ha
  once := by rw [h.adoptions]; exact List.Pairwise.nil
  failures f hf := by simp [h.failures] at hf

theorem Inv.setChan (h : w.Inv) {dst : Fin n} {msgs : List (ElectionMsg n)}
    (hsub : ∀ msg ∈ msgs, msg ∈ w.chan src dst) : (w.setChan src dst msgs).Inv where
  core := h.core
  settled := h.settled
  out := h.out
  adopted := h.adopted
  msgs src' dst' msg hmsg := by
    by_cases hsrc : src' = src
    · subst hsrc
      by_cases hdst : dst' = dst
      · subst hdst
        simp only [World.setChan, update_self] at hmsg
        exact h.msgs _ _ msg (hsub msg hmsg)
      · simp only [World.setChan, update_self, update_of_ne hdst] at hmsg
        exact h.msgs _ _ msg hmsg
    · simp only [World.setChan, update_of_ne hsrc] at hmsg
      exact h.msgs _ _ msg hmsg
  adoptions := h.adoptions
  once := h.once
  failures := h.failures

theorem forall_update {P : Fin n → Monitor n → Prop} (h : ∀ r, P r (w.mon r)) {rank : Fin n}
    {m : Monitor n} (hm : P rank m) (r : Fin n) : P r (Function.update w.mon rank m r) := by
  by_cases hr : r = rank
  · subst hr
    rw [update_self]
    exact hm
  · rw [update_of_ne hr]
    exact h r

/-- **The invariant survives a handler that succeeds.** -/
theorem Inv.absorb_ok (h : w.Inv) {rank : Fin n} {m : Monitor n}
    (heff : Effect rank (w.mon rank) m) : (w.absorb rank (.ok m)).Inv where
  core := forall_update h.core ⟨heff.core.epoch, heff.core.electing, heff.core.acked,
    heff.core.leader⟩
  settled := forall_update (P := fun _ m => Settled m) h.settled
    ⟨heff.settled.idle, heff.settled.waiting⟩
  out := forall_update (P := fun _ m => m.out = []) h.out rfl
  adopted := forall_update (P := fun _ m => m.adopted = []) h.adopted rfl
  msgs src dst msg hmsg := by
    simp only [absorb] at hmsg ⊢
    split_ifs at hmsg with hsrc
    · subst hsrc
      rw [update_self]
      rcases mem_append.mp hmsg with hmsg | hmsg
      · exact (h.msgs _ _ msg hmsg).mono heff.stored
      · obtain ⟨p, hp, rfl⟩ := mem_map.mp hmsg
        obtain ⟨hp, hdst⟩ := mem_filter.mp hp
        rcases heff.out p hp with hold | hok
        · simp [h.out] at hold
        · exact of_decide_eq_true hdst ▸ hok
    · rw [update_of_ne hsrc]
      exact h.msgs _ _ msg hmsg
  adoptions a ha := by
    rcases mem_append.mp ha with ha | ha
    · -- an earlier adoption, and the stored epoch has not gone down since
      obtain ⟨heven, hstored, hdecl⟩ := h.adoptions a ha
      refine ⟨heven, forall_update (P := fun r m => a.who = r → a.epoch ≤ m.stored)
        (fun r hr => hr ▸ hstored) (fun hr => ?_) a.who rfl, hdecl⟩
      exact (hr ▸ hstored).trans heff.stored
    · rcases heff.adopted with hnone | ⟨b, hb, hok⟩
      · rw [hnone, h.adopted] at ha
        simp at ha
      · rw [hb, h.adopted] at ha
        obtain rfl : a = b := by simpa using ha
        refine ⟨hok.even, ?_, hok.declared⟩
        simp only [absorb, hok.who, update_self]
        exact hok.stored
  once := by
    refine pairwise_append.mpr ⟨h.once, ?_, fun a ha b hb hwho => ?_⟩
    · rcases heff.adopted with hnone | ⟨b, hb, -⟩
      · rw [hnone, h.adopted]
        exact List.Pairwise.nil
      · rw [hb, h.adopted]
        exact pairwise_singleton _ _
    · -- the new epoch is beyond the stored one
      have hold := (h.adoptions a ha).2.1
      rcases heff.adopted with hnone | ⟨c, hc, hok⟩
      · rw [hnone, h.adopted] at hb
        simp at hb
      · rw [hc, h.adopted] at hb
        obtain rfl : b = c := by simpa using hb
        rw [hwho, hok.who] at hold
        exact (hold.trans_lt hok.later).ne
  failures := h.failures

/-- The invariant holds, and no stored epoch has gone down. -/
structure Advanced (w w' : World n) : Prop where
  inv : w'.Inv
  stored : ∀ r, (w.mon r).stored ≤ (w'.mon r).stored

/-- **The invariant survives a handler.** -/
theorem Inv.absorb (h : w.Inv) {rank : Fin n} (hr : Monitor.Outcome rank (w.mon rank) r) :
    Advanced w (w.absorb rank r) := by
  cases r with
  | ok m =>
    exact ⟨h.absorb_ok hr, forall_update (P := fun r m => (w.mon r).stored ≤ m.stored)
      (fun _ => le_rfl) hr.stored⟩
  | error a =>
    have hfresh := h.absorb_ok (Monitor.fresh_outcome (h.adopted rank) : Effect rank _ _)
    have hstored := forall_update (P := fun r m => (w.mon r).stored ≤ m.stored) (fun _ => le_rfl)
      (le_refl (w.mon rank).fresh.stored)
    refine ⟨
      { core := hfresh.core
        settled := hfresh.settled
        out := hfresh.out
        adopted := hfresh.adopted
        msgs := fun src dst msg hmsg => (h.msgs src dst msg hmsg).mono (hstored src)
        adoptions := fun b hb => hfresh.adoptions b (mem_append_left _ hb)
        once := h.once
        failures := ?_ }, hstored⟩
    exact forall_mem_append.mpr ⟨h.failures, forall_mem_singleton.mpr hr⟩

/-- No monitor has stored the last epoch. -/
def Young (w : World n) : Prop := ∀ r, (w.mon r).stored < lastEpoch

instance decidableYoung (w : World n) : Decidable w.Young :=
  inferInstanceAs (Decidable (∀ r, (w.mon r).stored < lastEpoch))

/-- **One action.** -/
theorem step_advanced {act : ElectionAction n} (h : w.Inv) (hyoung : w.Young)
    (hstep : w.step act = some w') :
    Advanced w w' := by
  cases act with
  | deliver src dst =>
    cases hchan : w.chan src dst with
    | nil => simp [step, hchan] at hstep
    | cons msg rest =>
      simp only [step, hchan, some_inj] at hstep
      obtain ⟨hmsg, hbumps⟩ := h.msgs _ _ msg (hchan ▸ mem_cons_self)
      have hlast : msg.bumps < lastEpoch := hbumps.trans_lt (max_lt (hyoung src) (by decide))
      have hrest : (w.setChan src dst rest).Inv :=
        h.setChan fun _ hm => hchan ▸ mem_cons_of_mem _ hm
      obtain ⟨hinv, hstored⟩ := hrest.absorb
        (Monitor.dispatch_outcome (h.core dst) (hyoung dst) (h.settled dst) (h.adopted dst) hmsg
          hlast)
      exact hstep ▸ ⟨hinv, hstored⟩
  | lose src dst i =>
    cases hstep
    exact ⟨h.setChan fun _ hm => mem_of_mem_eraseIdx hm, fun _ => le_rfl⟩
  | expire rank =>
    simp only [step] at hstep
    split_ifs at hstep
    cases hstep
    exact h.absorb (Monitor.expire_outcome (h.core rank) (hyoung rank))
  | startElection rank =>
    cases hstep
    exact h.absorb (Monitor.startElection_calm (h.core rank) (hyoung rank)).outcome
  | bootstrap rank =>
    cases hstep
    exact h.absorb (Monitor.bootstrap_outcome (h.core rank))
  | restart rank =>
    cases hstep
    exact h.absorb (Monitor.fresh_outcome (h.adopted rank))
  | quorumEnter rank =>
    cases hstep
    exact h.absorb (Monitor.quorumEnter_outcome (h.core rank) (hyoung rank))
  | quorumExit rank =>
    cases hstep
    exact h.absorb (Monitor.quorumExit_outcome (h.core rank) (hyoung rank))
  | configure rank required caps joined =>
    cases hstep
    exact h.absorb (Monitor.configure_outcome (h.core rank) (h.settled rank) required caps joined)

/-- No monitor has stored the last epoch when an action is taken. -/
abbrev YoungAlong (acts : List (ElectionAction n)) (w : World n) : Prop :=
  Transition.Along step (fun w _ => w.Young) acts w

/-- **A run.** -/
theorem run_advanced {acts : List (ElectionAction n)} (h : w.Inv) (hyoung : YoungAlong acts w)
    (hrun : Transition.run step acts w = some w') : Advanced w w' := by
  refine Transition.invariant_of_along (P := Advanced w) (fun s a s' hs hyoung hstep => ?_) hyoung
    hrun ⟨h, fun _ => le_rfl⟩
  have hnext := step_advanced hs.inv hyoung hstep
  exact ⟨hnext.inv, fun r => (hs.stored r).trans (hnext.stored r)⟩

/-- A running elector is not behind its store, so its epoch does not go down. -/
theorem Advanced.epoch (h : w.Inv) (ha : Advanced w w') (r : Fin n) :
    (w'.mon r).epoch = 0 ∨ (w.mon r).epoch ≤ (w'.mon r).epoch := by
  have hstored := ha.stored r
  rcases (ha.inv.core r).epoch with h' | h'
  · exact .inl h'
  · rcases (h.core r).epoch with h'' | h'' <;> omega

/-- **Two adoptions by one monitor in one epoch are one.** -/
theorem Inv.adoption_unique (h : w.Inv) (ha : a ∈ w.adoptions) (hb : b ∈ w.adoptions)
    (hwho : a.who = b.who) (hepoch : a.epoch = b.epoch) : a = b := by
  by_contra hne
  have hsymm : Std.Symm fun a b : Adoption n => a.who = b.who → a.epoch ≠ b.epoch :=
    ⟨fun _ _ hab hw he => hab hw.symm he.symm⟩
  exact h.once.forall ha hb hne hwho hepoch

/-- Every member of the quorum takes the leader for its leader in the epoch. -/
def Followed (w : World n) (epoch : ℕ) (leader : Fin n) (quorum : Finset (Fin n)) : Prop :=
  ∀ r ∈ quorum, ∃ a ∈ w.adoptions, a.who = r ∧ a.epoch = epoch ∧ a.leader = leader

theorem Inv.leader_unique (h : w.Inv) (ha : a ∈ w.adoptions) (hb : b ∈ w.adoptions)
    (hepoch : a.epoch = b.epoch) (hfa : w.Followed a.epoch a.leader a.quorum)
    (hfb : w.Followed b.epoch b.leader b.quorum) : a.leader = b.leader := by
  obtain ⟨r, hra, hrb⟩ := (h.adoptions a ha).2.2.inter (h.adoptions b hb).2.2
  obtain ⟨c, hc, hcwho, hcepoch, hcleader⟩ := hfa r hra
  obtain ⟨d, hd, hdwho, hdepoch, hdleader⟩ := hfb r hrb
  have hcd : c = d := h.adoption_unique hc hd (hcwho.trans hdwho.symm)
    (hcepoch.trans (hepoch.trans hdepoch.symm))
  rw [← hcleader, hcd, hdleader]

/-- **Safety of the election.** Whatever is lost or delayed, and whoever is restarted when, as long
as no action is taken after a monitor has stored the last epoch: no stored epoch goes down, and the
epoch of a monitor goes down only to `0`, when it is started again and has not read its store; no
monitor adopts twice in one epoch; every quorum is a majority with the leader in it; one leader at
most has the whole of its quorum; and no assertion on ranks fails, nor any other but the one on the
parity of an acknowledged epoch. -/
theorem election_safety {init s s' : World n} {acts acts' : List (ElectionAction n)}
    (hinit : init.Initial) (hrun : Transition.run step acts init = some s)
    (hyoung : YoungAlong acts init) (hrun' : Transition.run step acts' s = some s')
    (hyoung' : YoungAlong acts' s) :
    (∀ r, (s.mon r).stored ≤ (s'.mon r).stored) ∧
      (∀ r, (s'.mon r).epoch = 0 ∨ (s.mon r).epoch ≤ (s'.mon r).epoch) ∧
      (s'.adoptions.Pairwise fun a b => a.who = b.who → a.epoch ≠ b.epoch) ∧
      (∀ a ∈ s'.adoptions, a.epoch % 2 = 0 ∧ a.leader ∈ a.quorum ∧ n < 2 * a.quorum.card) ∧
      (∀ a ∈ s'.adoptions, ∀ b ∈ s'.adoptions, a.epoch = b.epoch →
        s'.Followed a.epoch a.leader a.quorum → s'.Followed b.epoch b.leader b.quorum →
          a.leader = b.leader) ∧
      ∀ f ∈ s'.failures, f = .ackParity := by
  have hs : s.Inv := (run_advanced (inv_of_initial hinit) hyoung hrun).inv
  have hs' : Advanced s s' := run_advanced hs hyoung' hrun'
  refine ⟨hs'.stored, hs'.epoch hs, hs'.inv.once, fun a ha => ?_, ?_, hs'.inv.failures⟩
  · obtain ⟨heven, -, hdecl⟩ := hs'.inv.adoptions a ha
    exact ⟨heven, hdecl.mem, hdecl.majority⟩
  · intro a ha b hb hepoch hfa hfb
    exact hs'.inv.leader_unique ha hb hepoch hfa hfb

/-- Three monitors that have just been started, with an epoch in their stores. -/
def threeMonitors (stored : ℕ) : World 3 where
  mon _ :=
    { stored := stored, caps := ⟨0, 0, 14⟩, required := ⟨0, 0, 14⟩, hasEverJoined := false,
      state := .probing, quorum := ∅, epoch := 0, participating := true, electingMe := false,
      ackedMe := ∅, leaderAcked := none, timer := false, out := [], adopted := [] }
  chan _ _ := []
  adoptions := []
  failures := []

theorem threeMonitors_initial (stored : ℕ) : (threeMonitors stored).Initial :=
  ⟨fun _ => rfl, fun _ _ => rfl, rfl, rfl⟩

/-- Monitor `0` is acknowledged by the others and wins; monitor `2` misses the news and is started
again. -/
def firstElection : List (ElectionAction 3) :=
  [.startElection 0, .startElection 1, .startElection 2,
    .deliver 0 1, .deliver 0 2, .deliver 1 0, .deliver 1 0, .deliver 2 0, .deliver 2 0,
    .deliver 0 1, .lose 0 2 0, .restart 2]

theorem election_safety_first :
    ∃ s, Transition.run step firstElection (threeMonitors 0) = some s ∧
      s.adoptions.map (fun a => (a.who, a.epoch, a.leader)) = [(0, 2, 0), (1, 2, 0)] ∧
      (∀ a ∈ s.adoptions, a.epoch % 2 = 0 ∧ a.leader ∈ a.quorum ∧ 3 < 2 * a.quorum.card) := by
  have hsome : ((Transition.run step firstElection (threeMonitors 0)).map fun s =>
      s.adoptions.map fun a => (a.who, a.epoch, a.leader)) = some [(0, 2, 0), (1, 2, 0)] := by
    decide +kernel
  have hyoung : YoungAlong firstElection (threeMonitors 0) := by decide +kernel
  obtain ⟨s, hrun, hadopt⟩ := map_eq_some_iff.mp hsome
  exact ⟨s, hrun, hadopt, (election_safety (threeMonitors_initial 0) hrun hyoung
    (Transition.run_nil s) trivial).2.2.2.1⟩

/-- **The last epoch**: a monitor that has stored it starts an election in the first one. -/
theorem election_epoch_overflows :
    (threeMonitors 0xffffffff).Initial ∧
      ((Transition.run step [.startElection 0] (threeMonitors 0xffffffff)).map fun s =>
        ((s.mon 0).stored, (s.mon 0).epoch)) = some (1, 1) :=
  ⟨threeMonitors_initial _, by decide +kernel⟩

end World

end Ceph.Mon
