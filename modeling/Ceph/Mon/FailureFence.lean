import Ceph.Lib.Ensures
import Ceph.Mon.MDSMonitor

set_option autoImplicit false

/-! # Fencing the former holders of a rank

A daemon that enters replay waits for the OSD map of epoch `last_failure_osd_epoch`, so that
whoever held the rank before it is blacklisted by then. Every daemon of the file system that is
erased writes the field, also one that follows a rank and was not blacklisted: `fail_mds_gid` and
`stop` then pass 0.

The main result is about the transitions one by one, in any order and with any arguments
(`failure_fence`).
-/

namespace Ceph.Mds.FSMap

/-! ## What the transitions do to the field -/

/-- `last_failure_osd_epoch` of a file system. -/
def lastFailure (m : FSMap) (key : ℤ) : Option ℕ :=
  (m.filesystems.get key).map fun fs => fs.mdsMap.lastFailureOsdEpoch

variable {m m' : FSMap} {who gid : ℕ} {key rank k : ℤ}

theorem lastFailure_of_insert {fs : Filesystem}
    (h : m'.filesystems = m.filesystems.insert key fs) (k : ℤ) :
    m'.lastFailure k = if k = key then some fs.mdsMap.lastFailureOsdEpoch else m.lastFailure k := by
  rw [lastFailure, h, OrdMap.get_insert]
  split
  · rfl
  · rfl

theorem lastFailure_of_insert_of_eq {fs fs' : Filesystem} (hfs : m.filesystems.get key = some fs)
    (h : m'.filesystems = m.filesystems.insert key fs')
    (hlast : fs'.mdsMap.lastFailureOsdEpoch = fs.mdsMap.lastFailureOsdEpoch) (k : ℤ) :
    m'.lastFailure k = m.lastFailure k := by
  rw [lastFailure_of_insert h]
  split
  · next hk => rw [hk, hlast, lastFailure, hfs, Option.map_some]
  · rfl

/-- **`erase`** writes the field of the file system that the daemon belongs to. -/
theorem lastFailure_erase {blacklistEpoch : ℕ} (hk : k ≠ fsClusterIdNone) :
    Ensures (m.erase who blacklistEpoch) fun m' => m'.lastFailure k =
      if m.mdsRoles.get who = some k then some blacklistEpoch else m.lastFailure k := by
  unfold erase
  refine .bind (.eq _) fun role hrole => ?_
  rw [hrole]
  refine .ite (fun hnone => .some ?_) fun _ => .bind (.eq _) fun fs _ => .bind (.eq _) ?_
  · rw [if_neg (by rw [hnone, Option.some_inj]; exact hk.symm)]
    rfl
  · refine fun info _ => .bind (.eq _) fun released _ => .some ?_
    rw [lastFailure_of_insert rfl]
    by_cases hrk : k = role
    · rw [if_pos hrk, if_pos (by rw [hrk])]
    · rw [if_neg hrk, if_neg (by rw [Option.some_inj]; exact Ne.symm hrk)]

theorem lastFailure_damaged {blacklistEpoch : ℕ} (hk : k ≠ fsClusterIdNone) :
    Ensures (m.damaged who blacklistEpoch) fun m' => m'.lastFailure k =
      if m.mdsRoles.get who = some k then some blacklistEpoch else m.lastFailure k := by
  unfold damaged
  refine .bind (.eq _) fun role _ => .ite (fun _ => .none) fun _ => .bind (.eq _) fun fs hfs => ?_
  refine (lastFailure_erase hk).bind fun erased herased => .bind (.eq _) fun fs' hfs' => ?_
  refine .ite (fun _ => .some ?_) fun _ => .none
  calc _ = erased.lastFailure k := lastFailure_of_insert_of_eq hfs' rfl (by rfl) k
    _ = _ := herased
    _ = _ := by rw [lastFailure_of_insert_of_eq hfs rfl (by rfl)]; rfl

theorem mdsRoles_erase {blacklistEpoch : ℕ} :
    Ensures (m.erase who blacklistEpoch) fun m' => m'.mdsRoles = m.mdsRoles.erase who := by
  unfold erase
  refine .bind (.eq _) fun role _ => .ite (fun _ => .some rfl) fun _ => .bind (.eq _) fun fs _ => ?_
  exact .bind (.eq _) fun info _ => .bind (.eq _) fun released _ => .some rfl

/-- Daemons are erased one after the other: one of the file system is enough. -/
theorem lastFailure_eraseAll {blacklistEpoch : ℕ} (hk : k ≠ fsClusterIdNone) (gids : List ℕ) :
    Ensures (gids.foldlM (fun m gid => m.erase gid blacklistEpoch) m) fun m' => m'.lastFailure k =
      if ∃ gid ∈ gids, m.mdsRoles.get gid = some k then some blacklistEpoch
      else m.lastFailure k := by
  induction gids generalizing m with
  | nil => exact .some (by simp)
  | cons gid gids ih =>
    rw [List.foldlM_cons]
    refine .bind (.eq _) fun m₁ hm₁ => ih.imp fun m' hm' => ?_
    have hlast := lastFailure_erase hk m₁ hm₁
    have hroles := mdsRoles_erase m₁ hm₁
    rw [hm', hlast]
    by_cases hgid : m.mdsRoles.get gid = some k
    · simp [hgid]
    · -- the other daemons keep their roles
      have hother : ∀ g, m₁.mdsRoles.get g = some k ↔ m.mdsRoles.get g = some k := by
        intro g
        rw [hroles, OrdMap.get_erase]
        split
        · next heq => simp [heq, hgid]
        · exact Iff.rfl
      simp [hgid, hother]

/-- The daemons that `stop` drops along with another one. -/
def Drops (m : FSMap) (who gid : ℕ) : Prop :=
  ∃ role fs info, m.mdsRoles.get who = some role ∧ m.filesystems.get role = some fs ∧
    fs.mdsMap.mdsInfo.get who = some info ∧ gid ∈ fs.mdsMap.followers info.rank

/-- **`stop`** writes the field if a follower is dropped. -/
theorem lastFailure_stop (hk : k ≠ fsClusterIdNone) :
    Ensures (m.stop who) fun m' =>
      ((∃ gid, m.Drops who gid ∧ m.mdsRoles.get gid = some k) → m'.lastFailure k = some 0) ∧
      ((¬∃ gid, m.Drops who gid ∧ m.mdsRoles.get gid = some k) →
        m'.lastFailure k = m.lastFailure k) := by
  unfold stop
  refine .bind (.eq _) fun role hrole => .ite (fun _ => .none) fun _ => ?_
  refine .bind (.eq _) fun fs hfs => .bind (.eq _) fun info hinfo => ?_
  refine (lastFailure_eraseAll hk _).bind fun dropped hlast => .bind (.eq _) fun fs' hfs' => .some ?_
  have hdrops : (∃ gid, m.Drops who gid ∧ m.mdsRoles.get gid = some k) ↔
      ∃ gid ∈ fs.mdsMap.followers info.rank, m.mdsRoles.get gid = some k := by
    refine exists_congr fun gid => and_congr_left fun _ => ⟨?_, fun h => ?_⟩
    · rintro ⟨role', fs'', info', hrole', hfs'', hinfo', hgid⟩
      cases hrole.symm.trans hrole'
      cases hfs.symm.trans hfs''
      cases hinfo.symm.trans hinfo'
      exact hgid
    · exact ⟨role, fs, info, hrole, hfs, hinfo, h⟩
  rw [lastFailure_of_insert_of_eq hfs' rfl (by rfl) k, hlast, hdrops]
  refine ⟨fun h => if_pos h, fun h => (if_neg h).trans ?_⟩
  exact lastFailure_of_insert_of_eq hfs rfl (by rfl) k

theorem lastFailure_promote :
    Ensures (m.promote gid key rank) fun m' => m'.lastFailure k = m.lastFailure k := by
  unfold promote
  refine .bind (.eq _) fun role _ => .bind (.eq _) fun fs hfs => .bind (.eq _) fun info _ => ?_
  exact .some (lastFailure_of_insert_of_eq hfs rfl (by rfl) k)

theorem lastFailure_assignStandbyReplay :
    Ensures (m.assignStandbyReplay gid key rank) fun m' => m'.lastFailure k = m.lastFailure k := by
  unfold assignStandbyReplay
  refine .bind (.eq _) fun role _ => .bind (.eq _) fun info _ => .bind (.eq _) fun fs hfs => ?_
  exact .ite (fun _ => .some (lastFailure_of_insert_of_eq hfs rfl (by rfl) k)) fun _ => .none

theorem lastFailure_insert {info : MdsInfo} :
    Ensures (m.insert info) fun m' => m'.lastFailure k = m.lastFailure k := by
  unfold insert
  exact .ite (fun _ => .some rfl) fun _ => .none

theorem lastFailure_undamaged :
    Ensures (m.undamaged key rank) fun m' => m'.lastFailure k = m.lastFailure k := by
  unfold undamaged
  refine .bind (.eq _) fun fs hfs => .ite (fun _ => .some ?_) fun _ => .some rfl
  exact lastFailure_of_insert_of_eq hfs rfl (by rfl) k

theorem lastFailure_modifyDaemon {fn : MdsInfo → MdsInfo} :
    Ensures (m.modifyDaemon gid fn) fun m' => m'.lastFailure k = m.lastFailure k := by
  unfold modifyDaemon
  refine .bind (.eq _) fun role _ => .ite (fun _ => .bind (.eq _) fun info _ => ?_) fun _ => ?_
  · exact .ite (fun _ => .some rfl) fun _ => .none
  · refine .bind (.eq _) fun fs hfs => .bind (.eq _) fun info _ => .some ?_
    exact lastFailure_of_insert_of_eq hfs rfl (by rfl) k

theorem lastFailure_updateCompat (m : FSMap) (c : CompatSet) (k : ℤ) :
    (m.updateCompat c).lastFailure k = m.lastFailure k := by
  rw [lastFailure, updateCompat, OrdMap.get_mapVal, lastFailure, Option.map_map]
  rfl

end Ceph.Mds.FSMap

namespace Ceph.Mon.MDSMonitor

open Ceph.Mds Transition

/-! ## The transitions one by one -/

/-- One transition of the map, or of the epoch of the OSD map. -/
inductive Change where
  | fail (gid : ℕ)
  | damaged (gid : ℕ)
  | stop (gid : ℕ)
  | promote (gid : ℕ) (key rank : ℤ)
  | assignStandbyReplay (gid : ℕ) (key rank : ℤ)
  | insert (info : MdsInfo)
  | undamaged (key rank : ℤ)
  | modifyDaemon (gid : ℕ) (fn : MdsInfo → MdsInfo)
  | updateCompat (c : CompatSet)
  | configure (key : ℤ) (maxMds : ℕ) (notJoinable allowsStandbyReplay : Bool)
  | commit
  | osdCommit

def apply (mon : MDSMonitor) : Change → Option MDSMonitor
  | .fail gid => mon.failMdsGid gid
  | .damaged gid => mon.markDamaged gid
  | .stop gid => (mon.pending.stop gid).map mon.withPending
  | .promote gid key rank => (mon.pending.promote gid key rank).map mon.withPending
  | .assignStandbyReplay gid key rank =>
    (mon.pending.assignStandbyReplay gid key rank).map mon.withPending
  | .insert info => (mon.pending.insert info).map mon.withPending
  | .undamaged key rank => (mon.pending.undamaged key rank).map mon.withPending
  | .modifyDaemon gid fn => (mon.pending.modifyDaemon gid fn).map mon.withPending
  | .updateCompat c => some (mon.withPending (mon.pending.updateCompat c))
  | .configure key maxMds notJoinable allowsStandbyReplay =>
    (setFs mon.pending key maxMds notJoinable allowsStandbyReplay).map mon.withPending
  | .commit => some (mon.withPending { mon.pending with epoch := mon.pending.epoch + 1 })
  | .osdCommit => some { mon with osdEpoch := mon.osdEpoch + 1 }

/-- **`maybe_replace_gid` is a run of transitions.** -/
theorem maybeReplaceGid_run (mon : MDSMonitor) (gid : ℕ) (info : MdsInfo) (mayReplace : Bool) :
    Ensures (mon.maybeReplaceGid gid info mayReplace) fun mon' =>
      ∃ changes, run apply changes mon = some mon' := by
  unfold maybeReplaceGid
  refine .bind (.eq _) fun fscid _ => .bind (.eq _) fun sgid _ => .ite (fun _ => ?_) fun _ => ?_
  · refine .bind (.eq _) fun _ _ => .bind (.eq _) fun failed hfailed mon' hmon' => ?_
    refine ⟨[.fail gid, .promote sgid fscid info.rank], ?_⟩
    simp [run, apply, hfailed, hmon']
  refine .ite (fun _ mon' hmon' => ⟨[.fail gid], by simp [run, apply, hmon']⟩) fun _ => ?_
  refine .ite (fun _ mon' hmon' => ?_) fun _ => .some ⟨[], rfl⟩
  exact ⟨[.modifyDaemon info.globalId fun i => { i with laggy := true }],
    by simp [run, apply, hmon']⟩

/-- The transition drops a daemon of the file system that is not blacklisted, because it holds no
rank. -/
def DropsFollower (k : ℤ) (mon : MDSMonitor) : Change → Prop
  | .fail gid => mon.pending.mdsRoles.get gid = some k ∧ (mon.failMdsGid gid).isSome ∧
      ∃ info, mon.pending.getInfoGid gid = some info ∧ holdsRank info = false
  | .stop gid => (mon.pending.stop gid).isSome ∧
      ∃ follower, mon.pending.Drops gid follower ∧ mon.pending.mdsRoles.get follower = some k
  | _ => False

/-- What a transition leaves of the epochs returned for a file system, and of the field. -/
inductive Effect (k : ℤ) (mon : MDSMonitor) (c : Change) (mon' : MDSMonitor) : Prop where
  /-- Both stay as they are. -/
  | quiet (keeps : ¬ DropsFollower k mon c)
      (fences : ∀ e, (k, e) ∈ mon'.fences ↔ (k, e) ∈ mon.fences)
      (last : mon'.pending.lastFailure k = mon.pending.lastFailure k)
  /-- The field has the epoch of now. -/
  | blacklisted (keeps : ¬ DropsFollower k mon c)
      (fences : ∀ e, (k, e) ∈ mon'.fences → (k, e) ∈ mon.fences ∨ e = mon.osdEpoch)
      (last : mon'.pending.lastFailure k = some mon.osdEpoch)
  /-- The field is 0. -/
  | dropped (drops : DropsFollower k mon c)
      (fences : ∀ e, (k, e) ∈ mon'.fences ↔ (k, e) ∈ mon.fences)
      (last : mon'.pending.lastFailure k = some 0)

variable {mon mon' : MDSMonitor} {k : ℤ}

theorem mem_fence {role : ℤ} {info : MdsInfo} {e : ℕ} (h : (k, e) ∈ mon.fence role info) :
    (k, e) ∈ mon.fences ∨ e = mon.osdEpoch := by
  rw [fence] at h
  split at h
  · rcases List.mem_cons.mp h with heq | hmem
    · exact .inr (Prod.mk.inj heq).2
    · exact .inl hmem
  · exact .inl h

/-- Daemons of other file systems do not count. -/
theorem mem_fence_of_ne {role : ℤ} (h : role ≠ k) (info : MdsInfo) (e : ℕ) :
    (k, e) ∈ mon.fence role info ↔ (k, e) ∈ mon.fences := by
  rw [fence]
  split
  · rw [List.mem_cons, Prod.mk.injEq]
    exact or_iff_right fun heq => h heq.1.symm
  · exact Iff.rfl

theorem failMdsGid_effect {gid : ℕ} (hk : k ≠ fsClusterIdNone) :
    Ensures (mon.failMdsGid gid) fun mon' =>
      Effect k mon (.fail gid) mon' ∧ mon'.osdEpoch = mon.osdEpoch := by
  intro mon' h
  have hsome : (mon.failMdsGid gid).isSome := by rw [h]; rfl
  revert mon'
  refine Ensures.bind (.eq _) fun info hinfo => .bind (.eq _) fun role hrole => ?_
  refine (FSMap.lastFailure_erase hk).bind fun pending hlast => .some ⟨?_, rfl⟩
  by_cases hrk : role = k
  · subst hrk
    rw [if_pos hrole] at hlast
    cases hholds : holdsRank info with
    | true =>
      refine .blacklisted ?_ (fun e => mem_fence) (by rw [hlast, hholds]; rfl)
      rintro ⟨-, -, info', hinfo', hnot⟩
      rw [hinfo, Option.some_inj] at hinfo'
      rw [← hinfo', hholds] at hnot
      exact nomatch hnot
    | false =>
      refine .dropped ⟨hrole, hsome, info, hinfo, hholds⟩ (fun e => ?_) ?_
      · show (role, e) ∈ mon.fence role info ↔ _
        rw [fence, hholds, if_neg (by simp)]
      · rw [hlast, hholds, if_neg (by simp)]
  · rw [if_neg (by rw [hrole, Option.some_inj]; exact hrk)] at hlast
    refine .quiet ?_ (mem_fence_of_ne hrk info) hlast
    rintro ⟨hrole', -⟩
    rw [hrole, Option.some_inj] at hrole'
    exact hrk hrole'

theorem markDamaged_effect {gid : ℕ} (hk : k ≠ fsClusterIdNone) :
    Ensures (mon.markDamaged gid) fun mon' =>
      Effect k mon (.damaged gid) mon' ∧ mon'.osdEpoch = mon.osdEpoch := by
  refine .bind (.eq _) fun info _ => .bind (.eq _) fun role hrole => ?_
  refine (FSMap.lastFailure_damaged hk).bind fun pending hlast => .some ⟨?_, rfl⟩
  by_cases hrk : role = k
  · rw [if_pos (by rw [hrole, hrk])] at hlast
    exact .blacklisted id (fun e => mem_fence) hlast
  · rw [if_neg (by rw [hrole, Option.some_inj]; exact hrk)] at hlast
    exact .quiet id (mem_fence_of_ne hrk info) hlast

theorem stop_effect {gid : ℕ} (hk : k ≠ fsClusterIdNone) :
    Ensures ((mon.pending.stop gid).map mon.withPending) fun mon' =>
      Effect k mon (.stop gid) mon' ∧ mon.osdEpoch ≤ mon'.osdEpoch := by
  refine .map fun m' hm' => ⟨?_, le_rfl⟩
  obtain ⟨hdrops, hkeeps⟩ := FSMap.lastFailure_stop hk m' hm'
  by_cases h : ∃ follower, mon.pending.Drops gid follower ∧
      mon.pending.mdsRoles.get follower = some k
  · exact .dropped ⟨by rw [hm']; rfl, h⟩ (fun _ => Iff.rfl) (hdrops h)
  · exact .quiet (fun hbad => h hbad.2) (fun _ => Iff.rfl) (hkeeps h)

/-- A transition that only replaces the map, and leaves the field alone. -/
theorem quiet_of_map {c : Change} {next : Option FSMap} (hc : ¬ DropsFollower k mon c)
    (hlast : Ensures next fun m' => m'.lastFailure k = mon.pending.lastFailure k) :
    Ensures (next.map mon.withPending) fun mon' =>
      Effect k mon c mon' ∧ mon.osdEpoch ≤ mon'.osdEpoch :=
  .map (hlast.imp fun _ hm => ⟨.quiet hc (fun _ => Iff.rfl) hm, le_rfl⟩)

/-- **What one transition does.** -/
theorem apply_effect (hk : k ≠ fsClusterIdNone) (c : Change) :
    Ensures (mon.apply c) fun mon' => Effect k mon c mon' ∧ mon.osdEpoch ≤ mon'.osdEpoch := by
  cases c with
  | fail gid => exact (failMdsGid_effect hk).imp fun _ h => h.imp_right fun h => h.ge
  | damaged gid => exact (markDamaged_effect hk).imp fun _ h => h.imp_right fun h => h.ge
  | stop gid => exact stop_effect hk
  | promote gid key rank => exact quiet_of_map id FSMap.lastFailure_promote
  | assignStandbyReplay gid key rank => exact quiet_of_map id FSMap.lastFailure_assignStandbyReplay
  | insert info => exact quiet_of_map id FSMap.lastFailure_insert
  | undamaged key rank => exact quiet_of_map id FSMap.lastFailure_undamaged
  | modifyDaemon gid fn => exact quiet_of_map id FSMap.lastFailure_modifyDaemon
  | updateCompat c =>
    exact .some ⟨.quiet id (fun _ => Iff.rfl) (FSMap.lastFailure_updateCompat _ c k), le_rfl⟩
  | configure key maxMds notJoinable allowsStandbyReplay =>
    refine quiet_of_map id (.bind (.eq _) fun fs hfs => .some ?_)
    exact FSMap.lastFailure_of_insert_of_eq hfs rfl (by rfl) k
  | commit => exact .some ⟨.quiet id (fun _ => Iff.rfl) rfl, le_rfl⟩
  | osdCommit => exact .some ⟨.quiet id (fun _ => Iff.rfl) rfl, Nat.le_succ _⟩

/-! ## The fence -/

/-- The field of the file system is at least each epoch that was returned for a daemon of it. -/
def Covered (k : ℤ) (mon : MDSMonitor) : Prop :=
  ∀ e, (k, e) ∈ mon.fences → ∀ last, mon.pending.lastFailure k = some last → e ≤ last

/-- A daemon without a rank is dropped, by itself or along with the one it follows, after one with a
rank was failed. -/
def Unfences (k : ℤ) (mon : MDSMonitor) (c : Change) : Prop :=
  DropsFollower k mon c ∧ ∃ e, (k, e) ∈ mon.fences ∧ 0 < e

theorem covered_iff_not_unfences (hk : k ≠ fsClusterIdNone) {c : Change}
    (hbound : ∀ e, (k, e) ∈ mon.fences → e ≤ mon.osdEpoch) (hcovered : Covered k mon)
    (h : mon.apply c = some mon') : Covered k mon' ↔ ¬ Unfences k mon c := by
  cases (apply_effect hk c mon' h).1 with
  | quiet keeps fences last =>
    refine iff_of_true (fun e he => ?_) fun hbad => keeps hbad.1
    rw [last]
    exact hcovered e ((fences e).mp he)
  | blacklisted keeps fences last =>
    refine iff_of_true (fun e he => ?_) fun hbad => keeps hbad.1
    rw [last]
    rintro last ⟨⟩
    rcases fences e he with hold | hnow
    · exact hbound e hold
    · exact hnow.le
  | dropped drops fences last =>
    constructor
    · rintro hcov ⟨-, e, he, hpos⟩
      exact absurd (hcov e ((fences e).mpr he) 0 last) (by omega)
    · intro hgood e he
      rw [last]
      rintro last ⟨⟩
      by_contra hpos
      exact hgood ⟨drops, e, (fences e).mp he, by omega⟩

/-- **Fencing.** Whatever transitions follow one another, `last_failure_osd_epoch` of a file
system is at least every epoch that was returned when a daemon with a rank was blacklisted, all
along, exactly if no daemon without a rank is dropped in between. -/
theorem failure_fence (hk : k ≠ fsClusterIdNone)
    (hbound : ∀ e, (k, e) ∈ mon.fences → e ≤ mon.osdEpoch) (hcovered : Covered k mon)
    (changes : List Change) :
    (∀ done, done <+: changes → ∀ mon', run apply done mon = some mon' → Covered k mon') ↔
      Along apply (fun mon c => ¬ Unfences k mon c) changes mon := by
  refine throughout_iff_along (P := Covered k)
    (I := fun mon => ∀ e, (k, e) ∈ mon.fences → e ≤ mon.osdEpoch) (fun mon c mon' hbound h e he => ?_)
    (fun mon c mon' hbound hcovered h => covered_iff_not_unfences hk hbound hcovered h) ?_
    hbound hcovered
  · obtain ⟨heffect, hepoch⟩ := apply_effect hk c mon' h
    cases heffect with
    | quiet keeps fences last => exact (hbound e ((fences e).mp he)).trans hepoch
    | blacklisted keeps fences last =>
      rcases fences e he with hold | hnow
      · exact (hbound e hold).trans hepoch
      · exact hnow.le.trans hepoch
    | dropped drops fences last => exact (hbound e ((fences e).mp he)).trans hepoch
  · intro mon c hbad
    cases c with
    | fail gid => exact hbad.1.2.1
    | stop gid =>
      obtain ⟨m', hm'⟩ := Option.isSome_iff_exists.mp hbad.1.1
      simp [apply, hm']
    | _ => exact hbad.1.elim

/-- One file system with one rank: daemon 1 is active, daemon 2 follows it and daemon 3 is a
standby.
-/
def pairedMap : FSMap where
  filesystems := .insert .empty 1
    { fscid := 1
      mdsMap :=
        { inRanks := .insert .empty 0 ()
          up := .insert .empty 0 1
          mdsInfo := .insert (.insert .empty 1 { globalId := 1, rank := 0, state := .active })
            2 { globalId := 2, rank := 0, state := .standbyReplay }
          allowsStandbyReplay := true } }
  mdsRoles := .insert (.insert (.insert .empty 1 1) 2 1) 3 fsClusterIdNone
  standbyDaemons := .insert .empty 3 { globalId := 3 }
  standbyEpochs := .insert .empty 3 0

theorem failure_fence_paired : ∃ mon', run apply [.fail 1, .promote 2 1 0] ⟨pairedMap, 10, []⟩ =
    some mon' ∧ mon'.pending.lastFailure 1 = some 10 ∧ Covered 1 mon' := by
  obtain ⟨mon', hrun, hlast⟩ : ∃ mon', run apply [.fail 1, .promote 2 1 0] ⟨pairedMap, 10, []⟩ =
      some mon' ∧ mon'.pending.lastFailure 1 = some 10 := ⟨_, rfl, rfl⟩
  refine ⟨mon', hrun, hlast, (failure_fence (by decide) ?_ ?_ _).mpr ?_ _ List.prefix_rfl _ hrun⟩
  · intro e he
    exact nomatch he
  · intro e he
    exact nomatch he
  · refine ⟨?_, ?_, trivial⟩
    · rintro ⟨-, e, he, -⟩
      exact nomatch he
    · exact fun hbad => hbad.1

/-- **The fence is lost.** The active daemon fails at epoch 10 and then the one that followed it: the
standby goes into replay without waiting for any OSD map. So it is if the standby takes the rank and
is stopped, which drops the follower as well. -/
theorem follower_clears_fence :
    (∃ mon', run apply [.fail 1, .fail 2, .promote 3 1 0] ⟨pairedMap, 10, []⟩ = some mon' ∧
      (1, 10) ∈ mon'.fences ∧ mon'.pending.lastFailure 1 = some 0 ∧
      (mon'.pending.getInfoGid 3).map (fun info => info.state) = some .replay) ∧
    ∃ mon', run apply [.fail 1, .promote 3 1 0, .stop 3] ⟨pairedMap, 10, []⟩ = some mon' ∧
      (1, 10) ∈ mon'.fences ∧ mon'.pending.lastFailure 1 = some 0 :=
  ⟨⟨_, rfl, by decide, rfl, rfl⟩, _, rfl, by decide, rfl⟩

end Ceph.Mon.MDSMonitor
