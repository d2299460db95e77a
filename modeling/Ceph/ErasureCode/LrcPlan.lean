import Ceph.ErasureCode.LrcRecovery

set_option autoImplicit false

/-! # The planned chunks are enough

An encoding of all chunks starts with the last layer that has all chunks, and the layers before it
are left out. The planned chunks are enough exactly if no coding chunks are lost in this way. With
the parameters k, m, l this happens when there is one local group.
-/

namespace Ceph.ErasureCode

open List RecoveryPass

variable {β : Type}

/-! ## The chunks that are encoded -/

/-- The layers that an encoding of all chunks leaves out: those before the last one that has all
chunks. -/
def skippedLayers (n : ℕ) (layers : List (Layer β)) : List (Layer β) :=
  layers.take (encodeTop (Finset.range n) layers.reverse)

/-- The layers that it goes through. -/
def encodedLayers (n : ℕ) (layers : List (Layer β)) : List (Layer β) :=
  layers.drop (encodeTop (Finset.range n) layers.reverse)

theorem skippedLayers_append (n : ℕ) (layers : List (Layer β)) :
    skippedLayers n layers ++ encodedLayers n layers = layers := take_append_drop _ _

theorem Layered.sublist {n : ℕ} {layers ls : List (Layer β)} (h : Layered n layers)
    (hsub : ls.Sublist layers) : Layered n ls :=
  ⟨fun l hl => h.length l (hsub.subset hl), fun l hl => h.sound l (hsub.subset hl),
    h.order.sublist hsub⟩

section Encoded

variable {n : ℕ} {layers : List (Layer β)} {l k : Layer β} {init orig : ℕ → β}

theorem mem_of_encoded (hl : l ∈ encodedLayers n layers) : l ∈ layers := mem_of_mem_drop hl

theorem mem_of_skipped (hl : l ∈ skippedLayers n layers) : l ∈ layers := mem_of_mem_take hl

/-- The layers that are encoded do not write to those that are left out. -/
theorem Layered.disjoint (h : Layered n layers) (hl : l ∈ skippedLayers n layers)
    (hk : k ∈ encodedLayers n layers) : Disjoint k.coding.toFinset l.chunksAsSet := by
  have horder := h.order
  rw [← skippedLayers_append n layers] at horder
  exact (pairwise_append.mp horder).2.2 l hl k hk

/-- **An encoding of all chunks**: the layers that it goes through are codewords, and those left out
keep their buffers. -/
theorem Layered.encodeChunks_spec (h : Layered n layers) (init : ℕ → β) :
    ∃ orig, encodeChunks layers (Finset.range n) init = some orig ∧
      (∀ l ∈ encodedLayers n layers, Codeword l orig) ∧
      ∀ l ∈ skippedLayers n layers, ∀ c ∈ l.chunksAsSet, orig c = init c := by
  obtain ⟨orig, horig, hwords, hframe⟩ :=
    encodeLayers_spec (h.sublist (drop_sublist (encodeTop (Finset.range n) layers.reverse) layers))
      init
  refine ⟨orig, horig, hwords, fun l hl c hc => hframe c fun k hk hck => ?_⟩
  exact Finset.disjoint_left.mp (h.disjoint hl hk) (mem_toFinset.mpr hck) hc

theorem Layered.usable (h : Layered n layers)
    (hencode : encodeChunks layers (Finset.range n) init = some orig)
    (hl : l ∈ encodedLayers n layers) : Usable n orig l := by
  obtain ⟨orig', horig, hwords, -⟩ := h.encodeChunks_spec init
  cases horig.symm.trans hencode
  exact ⟨h.length l (mem_of_encoded hl), h.sound l (mem_of_encoded hl), fun _ => hwords l hl⟩

end Encoded

/-- **The planned chunks are enough**, whatever was encoded and whatever is missing. -/
def PlanSuffices (n : ℕ) (layers : List (Layer β)) : Prop :=
  ∀ init orig want available minimum, want ⊆ Finset.range n →
    encodeChunks layers (Finset.range n) init = some orig →
    minimumToDecode n layers want available = some minimum →
      minimum ⊆ available ∧ ∀ decoded, (∀ c ∈ minimum, decoded c = orig c) →
        ∃ d, decodeChunks n layers want minimum decoded = some d ∧ ∀ c ∈ want, d c = orig c

/-- **There is a plan** whenever one pass over the layers from last to first, each restoring its
chunks if it can, recovers all missing chunks. -/
def PlanComplete (n : ℕ) (layers : List (Layer β)) : Prop :=
  ∀ want available, pass (layers.reverse.map Layer.group) (Finset.range n \ available) = ∅ →
    (minimumToDecode n layers want available).isSome = true

theorem planComplete (n : ℕ) (layers : List (Layer β)) : PlanComplete n layers := by
  intro want available hpass
  unfold minimumToDecode
  dsimp only
  split
  · rfl
  · split
    · rfl
    · rw [if_pos (by rw [recoverLayers_eq_pass, hpass])]
      rfl

/-- If no layer with coding chunks is left out, the planned chunks are enough. -/
theorem planSuffices_of_skipped {n : ℕ} {layers : List (Layer β)} (h : Layered n layers)
    (hskipped : ∀ l ∈ skippedLayers n layers, l.coding = []) : PlanSuffices n layers := by
  intro init orig want available minimum hin hencode hplan
  obtain ⟨hsub, hpass⟩ := minimumToDecode_spec h.length hin hplan
  refine ⟨hsub, fun decoded hdecoded => decodeChunks_spec ?_ hin hpass hdecoded⟩
  intro l hl
  refine ⟨h.length l hl, h.sound l hl, fun hcoding => ?_⟩
  rw [← skippedLayers_append n layers, mem_append] at hl
  exact (h.usable hencode (hl.resolve_left fun hskip => hcoding (hskipped l hskip))).word hcoding

/-! ## A layer that is left out -/

section LeftOut

variable {n x : ℕ} {l : Layer β} {pre post : List (Layer β)}

theorem mem_missing_iff {c : ℕ} :
    c ∈ Finset.range n \ l.chunksAsSet.erase x ↔ c < n ∧ (c ∈ l.chunksAsSet → c = x) := by
  rw [Finset.mem_sdiff, Finset.mem_range, Finset.mem_erase, not_and_or, not_not]
  constructor
  · rintro ⟨hc, rfl | hno⟩
    · exact ⟨hc, fun _ => rfl⟩
    · exact ⟨hc, fun h => absurd h hno⟩
  · rintro ⟨hc, h⟩
    refine ⟨hc, ?_⟩
    by_cases hmem : c ∈ l.chunksAsSet
    · exact .inl (h hmem)
    · exact .inr hmem

/-- A later layer misses its coding chunks, and so cannot restore another one. -/
theorem planLayer_later {k : Layer β} (hk : k.Sound) (hlength : k.chunksMap.length = n)
    (hdisjoint : Disjoint k.coding.toFinset l.chunksAsSet) (hx : x ∈ l.chunksAsSet) (p : Plan)
    (hp : p.erasuresNotRecovered = Finset.range n \ l.chunksAsSet.erase x)
    (hwant : x ∈ p.erasuresWant) : planLayer {x} p k = p := by
  unfold planLayer
  by_cases hmem : x ∈ k.chunksAsSet
  · have hlayer : {x} ∩ k.chunksAsSet = {x} := Finset.singleton_inter_of_mem hmem
    have hne : ({x} : Finset ℕ) ∩ p.erasuresWant ≠ ∅ := by
      rw [Finset.singleton_inter_of_mem hwant]
      exact Finset.singleton_ne_empty x
    have hkin : ∀ c ∈ k.chunksAsSet, c < n := by
      intro c hc
      rw [← hlength]
      exact Finset.mem_range.mp (k.chunksAsSet_subset hc)
    have hxcoding : x ∉ k.coding.toFinset := Finset.disjoint_right.mp hdisjoint hx
    have hlost : insert x k.coding.toFinset ⊆ k.chunksAsSet ∩ p.erasuresNotRecovered := by
      intro c hc
      rw [hp, Finset.mem_inter, mem_missing_iff]
      rcases Finset.mem_insert.mp hc with rfl | hc
      · exact ⟨hmem, hkin c hmem, fun _ => rfl⟩
      · have hck := k.coding_subset hc
        exact ⟨hck, hkin c hck, fun h => absurd h (Finset.disjoint_left.mp hdisjoint hc)⟩
    have hmany : (k.chunksAsSet ∩ p.erasuresNotRecovered).card >
        k.erasureCode.codingChunkCount := by
      calc k.erasureCode.codingChunkCount
          _ = k.coding.toFinset.card := by rw [hk.count, k.card_coding]
          _ < (insert x k.coding.toFinset).card := by
              rw [Finset.card_insert_of_notMem hxcoding]
              exact Nat.lt_succ_self _
          _ ≤ (k.chunksAsSet ∩ p.erasuresNotRecovered).card := Finset.card_le_card hlost
    rw [hlayer, if_neg (Finset.singleton_ne_empty x), if_neg hne, if_pos hmany]
  · rw [Finset.singleton_inter_of_notMem hmem, if_pos rfl]

theorem planLayers_later {ks : List (Layer β)} (hks : ∀ k ∈ ks, k.Sound ∧ k.chunksMap.length = n ∧
      Disjoint k.coding.toFinset l.chunksAsSet) (hx : x ∈ l.chunksAsSet) {p : Plan}
    (hp : p.erasuresNotRecovered = Finset.range n \ l.chunksAsSet.erase x)
    (hwant : x ∈ p.erasuresWant) : ks.foldl (planLayer {x}) p = p := by
  induction ks with
  | nil => rfl
  | cons k ks ih =>
    obtain ⟨hk, hlength, hdisjoint⟩ := hks k mem_cons_self
    rw [foldl_cons, planLayer_later hk hlength hdisjoint hx p hp hwant]
    exact ih fun k' hk' => hks k' (mem_cons_of_mem _ hk')

theorem planLayer_self (hl : l.Sound) (hlength : l.chunksMap.length = n) (hx : x ∈ l.chunksAsSet)
    (hcoding : l.coding ≠ []) (p : Plan)
    (hp : p.erasuresNotRecovered = Finset.range n \ l.chunksAsSet.erase x)
    (hwant : p.erasuresWant = {x}) :
    (planLayer {x} p l).erasuresWant = ∅ ∧
      (planLayer {x} p l).minimum = p.minimum ∪ l.chunksAsSet.erase x := by
  have hin : ∀ c ∈ l.chunksAsSet, c < n := by
    intro c hc
    rw [← hlength]
    exact Finset.mem_range.mp (l.chunksAsSet_subset hc)
  have hlost : l.chunksAsSet ∩ p.erasuresNotRecovered = {x} := by
    ext c
    rw [hp, Finset.mem_inter, mem_missing_iff, Finset.mem_singleton]
    constructor
    · rintro ⟨hc, -, h⟩
      exact h hc
    · rintro rfl
      exact ⟨hx, hin c hx, fun _ => rfl⟩
  have hthere : l.chunksAsSet \ p.erasuresNotRecovered = l.chunksAsSet.erase x := by
    rw [← Finset.sdiff_inter_self_left, hlost, Finset.sdiff_singleton_eq_erase]
  have hfew : ¬ (({x} : Finset ℕ).card > l.erasureCode.codingChunkCount) := by
    rw [Finset.card_singleton, hl.count, not_lt]
    exact length_pos_iff.mpr hcoding
  unfold planLayer
  rw [Finset.singleton_inter_of_mem hx, if_neg (Finset.singleton_ne_empty x), hwant,
    Finset.inter_self, if_neg (Finset.singleton_ne_empty x), hlost, if_neg hfew, hthere]
  exact ⟨Finset.sdiff_self _, rfl⟩

/-- Once all that is wanted is recovered, the plan only adds what is wanted. -/
theorem planLayers_done (want : Finset ℕ) (ls : List (Layer β)) {p : Plan}
    (hp : p.erasuresWant = ∅) :
    (ls.foldl (planLayer want) p).erasuresWant = ∅ ∧
      (ls.foldl (planLayer want) p).minimum ⊆ p.minimum ∪ want := by
  induction ls generalizing p with
  | nil => exact ⟨hp, Finset.subset_union_left⟩
  | cons k ls ih =>
    have hstep : (planLayer want p k).erasuresWant = ∅ ∧
        (planLayer want p k).minimum ⊆ p.minimum ∪ want := by
      unfold planLayer
      dsimp only
      rw [hp, Finset.inter_empty, if_pos rfl]
      split
      · exact ⟨hp, Finset.subset_union_left⟩
      · exact ⟨rfl, Finset.union_subset_union_right Finset.inter_subset_left⟩
    obtain ⟨hwant, hmin⟩ := ih hstep.1
    refine ⟨hwant, hmin.trans ?_⟩
    calc (planLayer want p k).minimum ∪ want
        _ ⊆ (p.minimum ∪ want) ∪ want := Finset.union_subset_union_left hstep.2
        _ = p.minimum ∪ want := by rw [Finset.union_assoc, Finset.union_self]

/-- **A chunk of a layer is planned from the rest of the layer**, if that is all there is. -/
theorem minimumToDecode_erase (h : Layered n (pre ++ l :: post)) (hx : x ∈ l.chunksAsSet)
    (hcoding : l.coding ≠ []) :
    minimumToDecode n (pre ++ l :: post) {x} (l.chunksAsSet.erase x) =
      some (l.chunksAsSet.erase x) := by
  have hl : l ∈ pre ++ l :: post := by simp
  have hlength := h.length l hl
  have hxn : x < n := by
    rw [← hlength]
    exact Finset.mem_range.mp (l.chunksAsSet_subset hx)
  have hxlost : x ∈ Finset.range n \ l.chunksAsSet.erase x :=
    mem_missing_iff.mpr ⟨hxn, fun _ => rfl⟩
  have hwant : (Finset.range n \ l.chunksAsSet.erase x) ∩ {x} = {x} :=
    Finset.inter_singleton_of_mem hxlost
  have hlater := (pairwise_cons.mp (pairwise_append.mp h.order).2.1).1
  -- the later layers are skipped
  have hpost : post.reverse.foldl (planLayer {x})
      ⟨Finset.range n \ l.chunksAsSet.erase x, {x}, ∅⟩ =
        ⟨Finset.range n \ l.chunksAsSet.erase x, {x}, ∅⟩ := by
    apply planLayers_later _ hx rfl (Finset.mem_singleton_self x)
    intro k hk
    have hk := mem_reverse.mp hk
    have hkl : k ∈ pre ++ l :: post := by simp [hk]
    exact ⟨h.sound k hkl, h.length k hkl, hlater k hk⟩
  obtain ⟨hself, hselfmin⟩ := planLayer_self (h.sound l hl) hlength hx hcoding
    ⟨Finset.range n \ l.chunksAsSet.erase x, {x}, ∅⟩ rfl rfl
  -- the earlier ones add at most the chunk itself
  obtain ⟨hdone, hmin⟩ := planLayers_done {x} pre.reverse hself
  have hmin' := planLayers_minimum {x} pre.reverse (planLayer {x}
    ⟨Finset.range n \ l.chunksAsSet.erase x, {x}, ∅⟩ l)
  rw [hselfmin, Finset.empty_union] at hmin hmin'
  have hplan : plan (pre ++ l :: post) (Finset.range n \ l.chunksAsSet.erase x) {x} =
      pre.reverse.foldl (planLayer {x}) (planLayer {x}
        ⟨Finset.range n \ l.chunksAsSet.erase x, {x}, ∅⟩ l) := by
    rw [plan, hwant, reverse_append, reverse_cons, foldl_append, foldl_append,
      hpost, foldl_cons, foldl_nil]
  unfold minimumToDecode
  dsimp only
  rw [hwant, if_neg (Finset.singleton_ne_empty x), hplan, if_pos hdone, Option.some_inj]
  ext c
  rw [Finset.mem_sdiff, mem_missing_iff]
  constructor
  · rintro ⟨hc, hthere⟩
    rcases Finset.mem_union.mp hc with hc | hc
    · rcases Finset.mem_union.mp (hmin hc) with hc | hc
      · exact hc
      · rw [Finset.mem_singleton] at hc
        exact absurd ⟨hc ▸ hxn, fun _ => hc⟩ hthere
    · rw [Finset.mem_singleton] at hc
      exact absurd ⟨hc ▸ hxn, fun _ => hc⟩ hthere
  · intro hc
    refine ⟨Finset.mem_union_left _ (hmin' hc), fun h => ?_⟩
    obtain ⟨hne, hcl⟩ := Finset.mem_erase.mp hc
    exact hne (h.2 hcl)

/-- If a layer with coding chunks is left out, the planned chunks are not always enough: the decoder
cannot know what the chunk of the layer was. -/
theorem not_planSuffices [Nontrivial β] {layers : List (Layer β)} (h : Layered n layers)
    (hl : l ∈ skippedLayers n layers) (hcoding : l.coding ≠ []) : ¬ PlanSuffices n layers := by
  intro hplan
  obtain ⟨x, hx⟩ := exists_mem_of_ne_nil _ hcoding
  have hxl : x ∈ l.chunksAsSet := l.coding_subset (mem_toFinset.mpr hx)
  obtain ⟨pre, mid, htake⟩ := append_of_mem hl
  have hsplit : layers = pre ++ l :: (mid ++ layers.drop
      (encodeTop (Finset.range n) layers.reverse)) := by
    rw [← cons_append, ← append_assoc, ← htake, skippedLayers, take_append_drop]
  have hmin : minimumToDecode n layers {x} (l.chunksAsSet.erase x) =
      some (l.chunksAsSet.erase x) := by
    rw [hsplit] at h ⊢
    exact minimumToDecode_erase h hxl hcoding
  have hin : ({x} : Finset ℕ) ⊆ Finset.range n := by
    rw [Finset.singleton_subset_iff, ← h.length l (mem_of_mem_take hl)]
    exact l.chunksAsSet_subset hxl
  -- whatever is decoded, the chunk can have had another buffer
  obtain ⟨y, z, hyz⟩ := exists_pair_ne β
  have hdecode : ∀ v, ∃ d, decodeChunks n layers {x} (l.chunksAsSet.erase x) (fun _ => y) = some d ∧
      d x = v := by
    intro v
    obtain ⟨orig, hencode, -, hframe⟩ := h.encodeChunks_spec (Function.update (fun _ => y) x v)
    have hsame := hframe l hl
    obtain ⟨d, hd, hdx⟩ := (hplan _ orig {x} _ _ hin hencode hmin).2 (fun _ => y) (by
      intro c hc
      obtain ⟨hne, hcl⟩ := Finset.mem_erase.mp hc
      rw [hsame c hcl, Function.update_of_ne hne])
    refine ⟨d, hd, ?_⟩
    rw [hdx x (Finset.mem_singleton_self x), hsame x hxl, Function.update_self]
  obtain ⟨d, hd, hdx⟩ := hdecode y
  obtain ⟨d', hd', hdx'⟩ := hdecode z
  rw [hd, Option.some_inj] at hd'
  rw [← hd', hdx] at hdx'
  exact hyz hdx'

end LeftOut

/-- **Locally repairable codes: the planned chunks are enough, and there is a plan whenever a pass
recovers everything**, exactly if no layer with coding chunks comes before the last layer that has
all chunks. -/
theorem plan_suffices_iff [Nontrivial β] {n : ℕ} {layers : List (Layer β)} (h : Layered n layers) :
    (PlanSuffices n layers ∧ PlanComplete n layers) ↔
      ∀ l ∈ skippedLayers n layers, l.coding = [] := by
  constructor
  · intro hplan l hl
    by_contra hcoding
    exact not_planSuffices h hl hcoding hplan.1
  · intro hskipped
    exact ⟨planSuffices_of_skipped h hskipped, planComplete n layers⟩

/-! ## One local group -/

/-- The exclusive or of a list of bytes. -/
def parity (b : List UInt8) : UInt8 := b.foldr (· ^^^ ·) 0

/-- A code with one coding chunk: the parity of the data, which is the last buffer. -/
def parityCode : LayerCode UInt8 where
  codingChunkCount := 1
  encodeChunks _ b := some (b.dropLast ++ [parity b.dropLast])
  decodeChunks _ known _ := some (known.map (·.getD (parity (known.filterMap id))))

theorem parity_append (a b : List UInt8) : parity (a ++ b) = parity a ^^^ parity b := by
  induction a with
  | nil => simp [parity]
  | cons x a ih =>
    show x ^^^ parity (a ++ b) = x ^^^ parity a ^^^ parity b
    rw [ih, UInt8.xor_assoc]

theorem eq_map_some_of_completes {known : List (Option UInt8)} {w : List UInt8}
    (h : Completes known w) (hcount : known.countP Option.isNone = 0) : known = w.map some := by
  induction h with
  | nil => rfl
  | @cons k v known w hkv h ih =>
    rcases hkv with rfl | rfl
    · simp at hcount
    · rw [countP_cons_of_neg (by simp)] at hcount
      rw [ih hcount, map_cons]

/-- The buffer that is unknown is the parity of the others, if that of all is zero. -/
theorem map_getD_of_completes {known : List (Option UInt8)} {w : List UInt8}
    (h : Completes known w) (hcount : known.countP Option.isNone ≤ 1) (x : UInt8)
    (hx : known.countP Option.isNone = 1 → parity (known.filterMap id) ^^^ parity w = x) :
    known.map (·.getD x) = w := by
  induction h generalizing x with
  | nil => rfl
  | @cons k v known w hkv h ih =>
    rcases hkv with rfl | rfl
    · -- all others are known
      rw [countP_cons_of_pos rfl] at hcount hx
      have hzero : known.countP Option.isNone = 0 := by omega
      have hknown := eq_map_some_of_completes h hzero
      have hxv := hx (by omega)
      have hparity : parity w ^^^ parity (v :: w) = v := by
        show parity w ^^^ (v ^^^ parity w) = v
        rw [UInt8.xor_comm v, ← UInt8.xor_assoc, UInt8.xor_self, UInt8.zero_xor]
      rw [hknown] at hxv ⊢
      have hall : (none :: w.map some).filterMap id = w := by simp
      rw [hall, hparity] at hxv
      simp [← hxv]
    · rw [countP_cons_of_neg (by simp)] at hcount hx
      rw [map_cons, Option.getD_some, ih hcount x]
      intro hone
      rw [← hx hone]
      show _ = (v ^^^ parity (known.filterMap id)) ^^^ (v ^^^ parity w)
      rw [UInt8.xor_comm v (parity (known.filterMap id)), UInt8.xor_assoc,
        ← UInt8.xor_assoc v v, UInt8.xor_self, UInt8.zero_xor]

theorem parityCode_sound (chunksMap : List Slot)
    (hcoding : (⟨chunksMap, parityCode⟩ : Layer UInt8).coding.length = 1) :
    (⟨chunksMap, parityCode⟩ : Layer UInt8).Sound := by
  have hlen : (⟨chunksMap, parityCode⟩ : Layer UInt8).chunks.length =
      (⟨chunksMap, parityCode⟩ : Layer UInt8).data.length + 1 := by
    rw [Layer.chunks, length_append, hcoding]
  refine ⟨hcoding.symm, ?_, ?_⟩
  · intro b hb
    rw [hlen] at hb
    have hdrop : b.dropLast.length = (⟨chunksMap, parityCode⟩ : Layer UInt8).data.length := by
      rw [length_dropLast, hb]
      rfl
    refine ⟨b.dropLast ++ [parity b.dropLast], rfl, ?_, ?_⟩
    · rw [length_append, hdrop, hb]
      rfl
    · rw [take_left' hdrop, dropLast_eq_take, hb]
      rfl
  · intro b w hb hw known d want hkw hkd hcount
    cases hw
    have hparity : parity (b.dropLast ++ [parity b.dropLast]) = 0 := by
      rw [parity_append]
      show parity b.dropLast ^^^ (parity b.dropLast ^^^ 0) = 0
      rw [UInt8.xor_zero, UInt8.xor_self]
    have hmap := map_getD_of_completes hkw hcount (parity (known.filterMap id)) (by
      intro
      rw [hparity, UInt8.xor_zero])
    exact congrArg some hmap

/-- The layers of `k=2 m=1 l=3`. -/
def oneGroup : List (Layer UInt8) :=
  ((parseKml 2 1 3).getD []).map fun chunksMap => ⟨chunksMap, parityCode⟩

theorem layered_oneGroup : Layered 4 oneGroup := by
  have hlayers : oneGroup = [⟨[.data, .data, .coding, .unused], parityCode⟩,
      ⟨[.data, .data, .data, .coding], parityCode⟩] := rfl
  rw [hlayers]
  refine ⟨?_, ?_, ?_⟩
  · simp
  · intro l hl
    rcases mem_pair.mp hl with rfl | rfl
    · exact parityCode_sound _ rfl
    · exact parityCode_sound _ rfl
  · refine pairwise_pair.mpr ?_
    decide

/-- **With one local group, the global coding chunk is not encoded**: of an object with the bytes
1 and 2, chunk 2 keeps the 0 of its buffer. When chunks 0 and 3 are lost, chunk 0 is planned from
the global layer and decoded as 2. -/
theorem decodeChunks_oneGroup_wrong :
    ∃ orig d, encodeChunks oneGroup (Finset.range 4)
          (fun c => if c = 0 then 1 else if c = 1 then 2 else 0) = some orig ∧
      minimumToDecode 4 oneGroup {0} {1, 2} = some {1, 2} ∧
        decodeChunks 4 oneGroup {0} {1, 2}
            (fun c => if c ∈ ({1, 2} : Finset ℕ) then orig c else 0) = some d ∧
          orig 0 = 1 ∧ orig 2 = 0 ∧ d 0 = 2 := by
  refine ⟨_, _, rfl, ?_, rfl, ?_⟩
  · decide
  · decide

instance UInt8.nontrivial : Nontrivial UInt8 := ⟨0, 1, by decide⟩

/-- The equivalence for these layers. -/
theorem plan_suffices_iff_oneGroup :
    Layered 4 oneGroup ∧ ((PlanSuffices 4 oneGroup ∧ PlanComplete 4 oneGroup) ↔
      ∀ l ∈ skippedLayers 4 oneGroup, l.coding = []) :=
  ⟨layered_oneGroup, plan_suffices_iff layered_oneGroup⟩

end Ceph.ErasureCode
