import Ceph.ErasureCode.Lrc
import Mathlib.Data.List.Basic

set_option autoImplicit false

/-! # Recovery in layers

The plan and the decoder walk over the layers in the same order. On the level of sets, a walk is a
pass of repairs (`RecoveryPass.pass`): the decoder restores what the pass restores, and the pass
that starts from the planned chunks restores all that is wanted. The buffers are right if every
layer that the decoder uses was encoded.
-/

namespace Ceph.ErasureCode

open Option Finset RecoveryPass

variable {β : Type}

variable {l : Layer β} {layers ls : List (Layer β)} {cs : List ℕ} {p : Plan} {n : ℕ} {orig : ℕ → β}

namespace Layer

theorem mem_positions (l : Layer β) (s : Slot) (c : ℕ) :
    c ∈ l.positions s ↔ l.chunksMap[c]? = some s := by
  rw [positions, List.mem_filter, List.mem_range, decide_eq_true_eq]
  refine ⟨And.right, fun h => ⟨?_, h⟩⟩
  exact (List.getElem?_eq_some_iff.mp h).1

theorem nodup_positions (l : Layer β) (s : Slot) : (l.positions s).Nodup :=
  List.nodup_range.filter _

theorem nodup_chunks (l : Layer β) : l.chunks.Nodup := by
  refine (l.nodup_positions .data).append (l.nodup_positions .coding) ?_
  intro c hdata hcoding
  rw [mem_positions] at hdata
  rw [coding, mem_positions, hdata] at hcoding
  cases hcoding

theorem mem_chunksAsSet (l : Layer β) (c : ℕ) : c ∈ l.chunksAsSet ↔ c ∈ l.chunks :=
  List.mem_toFinset

theorem chunksAsSet_subset (l : Layer β) : l.chunksAsSet ⊆ Finset.range l.chunksMap.length := by
  intro c hc
  rw [mem_chunksAsSet, chunks, List.mem_append, data, coding, mem_positions, mem_positions] at hc
  rw [mem_range]
  exact hc.elim (fun h => (List.getElem?_eq_some_iff.mp h).1)
    (fun h => (List.getElem?_eq_some_iff.mp h).1)

theorem coding_subset (l : Layer β) : l.coding.toFinset ⊆ l.chunksAsSet := by
  intro c hc
  rw [mem_chunksAsSet, chunks, List.mem_append]
  exact .inr (List.mem_toFinset.mp hc)

theorem card_coding (l : Layer β) : l.coding.toFinset.card = l.coding.length :=
  List.toFinset_card_of_nodup (l.nodup_positions .coding)

theorem localWant_range (h : l.chunksMap.length = n) :
    l.localWant (Finset.range n) = Finset.range l.chunks.length := by
  rw [localWant, filter_eq_self]
  intro j hj
  rw [mem_range] at hj
  rw [List.getElem?_eq_getElem hj, any_some, decide_eq_true_eq, ← h]
  exact l.chunksAsSet_subset ((l.mem_chunksAsSet _).mpr (List.getElem_mem hj))

end Layer

/-! ## Buffers that are put back -/

theorem scatter_of_not_mem {c : ℕ} (hc : c ∉ cs) (vs : List β) (f : ℕ → β) :
    scatter cs vs f c = f c := by
  induction cs generalizing vs f with
  | nil => rfl
  | cons d cs ih =>
    rw [List.mem_cons, not_or] at hc
    cases vs with
    | nil => rfl
    | cons v vs => rw [scatter, ih hc.2, Function.update_of_ne hc.1]

theorem map_scatter (hcs : cs.Nodup) {vs : List β} (hlen : vs.length = cs.length) (f : ℕ → β) :
    cs.map (scatter cs vs f) = vs := by
  induction cs generalizing vs f with
  | nil => exact (List.eq_nil_of_length_eq_zero hlen).symm
  | cons c cs ih =>
    rw [List.nodup_cons] at hcs
    cases vs with
    | nil => cases hlen
    | cons v vs =>
      rw [List.map_cons, scatter, scatter_of_not_mem hcs.1, Function.update_self,
        ih hcs.2 (Nat.succ_injective hlen)]

theorem scatter_map (hcs : cs.Nodup) (f g : ℕ → β) (c : ℕ) :
    scatter cs (cs.map g) f c = if c ∈ cs then g c else f c := by
  split_ifs with hc
  · have hlen : (cs.map g).length = cs.length := List.length_map _
    exact List.map_inj_left.mp (map_scatter hcs hlen f) c hc
  · rw [scatter_of_not_mem hc]

/-! ## The codes of the layers -/

/-- Buffers that have the known values. -/
def Completes (known : List (Option β)) (w : List β) : Prop :=
  List.Forall₂ (fun k v => k = none ∨ k = some v) known w

/-- **The code of a layer restores its chunks**: encoding all chunks leaves the data as they are,
and the result can be restored if at most as many chunks are unknown as there are coding chunks.
-/
structure Layer.Sound (l : Layer β) : Prop where
  count : l.erasureCode.codingChunkCount = l.coding.length
  encodes : ∀ b : List β, b.length = l.chunks.length →
    ∃ w, l.erasureCode.encodeChunks (Finset.range l.chunks.length) b = some w ∧
      w.length = b.length ∧ w.take l.data.length = b.take l.data.length
  restores : ∀ b w : List β, b.length = l.chunks.length →
    l.erasureCode.encodeChunks (Finset.range l.chunks.length) b = some w →
    ∀ known d want, Completes known w → Completes known d →
      known.countP Option.isNone ≤ l.erasureCode.codingChunkCount →
        l.erasureCode.decodeChunks want known d = some w

/-- **Layers over the same chunks**: no chunk is a coding chunk of two layers, and no layer uses a
coding chunk of a later one as data. -/
structure Layered (n : ℕ) (layers : List (Layer β)) : Prop where
  length : ∀ l ∈ layers, l.chunksMap.length = n
  sound : ∀ l ∈ layers, l.Sound
  order : layers.Pairwise fun l l' => Disjoint l'.coding.toFinset l.chunksAsSet

/-- The buffers of a layer are those of an encoding. -/
def Codeword (l : Layer β) (f : ℕ → β) : Prop :=
  ∃ b : List β, b.length = l.chunks.length ∧
    l.erasureCode.encodeChunks (Finset.range l.chunks.length) b = some (l.chunks.map f)

theorem Codeword.congr {f g : ℕ → β} (hg : Codeword l g) (h : ∀ c ∈ l.chunks, f c = g c) :
    Codeword l f := by
  obtain ⟨b, hb, hencode⟩ := hg
  exact ⟨b, hb, by rw [hencode, List.map_inj_left.mpr h]⟩

/-! ## Encoding -/

/-- **One layer is encoded**: its buffers are a codeword, and only its coding chunks change. -/
theorem encodeLayer_spec (hlength : l.chunksMap.length = n) (hl : l.Sound) (f : ℕ → β) :
    ∃ g, encodeLayer (Finset.range n) f l = some g ∧ Codeword l g ∧
      ∀ c, c ∉ l.coding → g c = f c := by
  obtain ⟨w, hw, hwlen, hdata⟩ := hl.encodes (l.chunks.map f) (List.length_map _)
  rw [List.length_map] at hwlen
  refine ⟨scatter l.chunks w f, ?_, ⟨l.chunks.map f, List.length_map _, ?_⟩, ?_⟩
  · rw [encodeLayer, Layer.localWant_range hlength, hw]
    rfl
  · rw [hw, map_scatter l.nodup_chunks hwlen]
  · intro c hc
    by_cases hmem : c ∈ l.chunks
    · -- a data chunk keeps its buffer
      have hcdata : c ∈ l.data := (List.mem_append.mp hmem).resolve_right hc
      have hmap : l.data.map (scatter l.chunks w f) = l.data.map f := by
        have htake : ∀ h : ℕ → β, l.data.map h = (l.chunks.map h).take l.data.length := by
          intro h
          rw [Layer.chunks, List.map_append, List.take_left' (List.length_map _)]
        rw [htake, htake f, map_scatter l.nodup_chunks hwlen, hdata]
      exact List.map_inj_left.mp hmap c hcdata
    · exact scatter_of_not_mem hmem w f

/-- **All layers are encoded**: the buffers of each are a codeword, and only coding chunks change.
-/
theorem encodeLayers_spec (h : Layered n layers) (f : ℕ → β) :
    ∃ g, layers.foldlM (encodeLayer (Finset.range n)) f = some g ∧
      (∀ l ∈ layers, Codeword l g) ∧ ∀ c, (∀ l ∈ layers, c ∉ l.coding) → g c = f c := by
  induction layers generalizing f with
  | nil => exact ⟨f, rfl, by simp, fun _ _ => rfl⟩
  | cons l layers ih =>
    obtain ⟨hlater, horder⟩ := List.pairwise_cons.mp h.order
    have hrest : Layered n layers :=
      ⟨fun l hl => h.length l (List.mem_cons_of_mem _ hl),
        fun l hl => h.sound l (List.mem_cons_of_mem _ hl), horder⟩
    obtain ⟨f', hf', hword, hframe⟩ :=
      encodeLayer_spec (h.length l List.mem_cons_self) (h.sound l List.mem_cons_self) f
    obtain ⟨g, hg, hwords, hframes⟩ := ih hrest f'
    refine ⟨g, by rw [List.foldlM_cons, hf', bind_eq_bind, bind_some, hg], ?_, ?_⟩
    · intro l' hl'
      rcases List.mem_cons.mp hl' with rfl | hl'
      · -- the later layers do not write to this one
        refine hword.congr fun c hc => hframes c fun k hk hck => ?_
        exact disjoint_left.mp (hlater k hk) (List.mem_toFinset.mpr hck)
          ((l'.mem_chunksAsSet c).mpr hc)
      · exact hwords l' hl'
    · intro c hc
      rw [hframes c fun k hk => hc k (List.mem_cons_of_mem _ hk),
        hframe c (hc l List.mem_cons_self)]

/-! ## Decoding -/

/-- The buffers of the chunks that are not lost are right. -/
structure Right (n : ℕ) (orig : ℕ → β) (s : Decoding β) : Prop where
  within : s.erasures ⊆ Finset.range n
  decoded : ∀ c ∈ Finset.range n, c ∉ s.erasures → s.decoded c = orig c

theorem countP_isNone (l : Layer β) (lost : Finset ℕ) (f : ℕ → β) :
    (l.chunks.map fun c => if c ∈ lost then none else some (f c)).countP Option.isNone =
      (l.chunksAsSet ∩ lost).card := by
  have hlost : ∀ c, (if c ∈ lost then none else some (f c)).isNone = decide (c ∈ lost) := by
    intro c
    by_cases hc : c ∈ lost
    · simp [hc]
    · simp [hc]
  rw [List.countP_map, Function.comp_def]
  simp only [hlost]
  rw [List.countP_eq_length_filter,
    ← List.toFinset_card_of_nodup (l.nodup_chunks.filter _), List.toFinset_filter]
  congr 1
  ext c
  simp [Layer.chunksAsSet]

variable (want : Finset ℕ)

/-- **A layer restores its chunks** if not too many are lost. -/
theorem decodeLayer_spec {s : Decoding β} (hlength : l.chunksMap.length = n) (hl : l.Sound)
    (hword : Codeword l orig) (hs : Right n orig s)
    (hcard : (l.chunksAsSet ∩ s.erasures).card ≤ l.erasureCode.codingChunkCount) :
    ∃ s', decodeLayer want s l = some s' ∧ Right n orig s' := by
  obtain ⟨b, hb, hencode⟩ := hword
  have hin : ∀ c ∈ l.chunks, c ∈ Finset.range n := by
    intro c hc
    rw [← hlength]
    exact l.chunksAsSet_subset ((l.mem_chunksAsSet c).mpr hc)
  have hdecode := hl.restores b _ hb hencode
    (l.chunks.map fun c => if c ∈ s.erasures then none else some (s.decoded c))
    (l.chunks.map s.decoded) (l.localWant want) ?_ ?_ (by rw [countP_isNone]; exact hcard)
  · refine ⟨⟨s.erasures \ l.chunksAsSet, scatter l.chunks (l.chunks.map orig) s.decoded,
      (s.erasures \ l.chunksAsSet) ∩ want⟩, ?_, ⟨?_, ?_⟩⟩
    · rw [decodeLayer]
      rw [hdecode]
      rfl
    · exact sdiff_subset.trans hs.within
    · intro c hc hlost
      show scatter l.chunks (l.chunks.map orig) s.decoded c = orig c
      rw [scatter_map l.nodup_chunks]
      by_cases hmem : c ∈ l.chunks
      · rw [if_pos hmem]
      · rw [if_neg hmem]
        apply hs.decoded c hc
        intro hce
        exact hlost (mem_sdiff.mpr ⟨hce, fun h => hmem ((l.mem_chunksAsSet c).mp h)⟩)
  · rw [Completes, List.forall₂_map_left_iff, List.forall₂_map_right_iff, List.forall₂_same]
    intro c hc
    by_cases hlost : c ∈ s.erasures
    · exact .inl (if_pos hlost)
    · right
      rw [if_neg hlost, hs.decoded c (hin c hc) hlost]
  · rw [Completes, List.forall₂_map_left_iff, List.forall₂_map_right_iff, List.forall₂_same]
    intro c hc
    by_cases hlost : c ∈ s.erasures
    · exact .inl (if_pos hlost)
    · exact .inr (if_neg hlost)

/-- A layer that the decoder can use: a codeword, or a layer without coding chunks, which is always
skipped. -/
structure Usable (n : ℕ) (orig : ℕ → β) (l : Layer β) : Prop where
  length : l.chunksMap.length = n
  sound : l.Sound
  word : l.coding ≠ [] → Codeword l orig

/-- The layer has lost chunks, and few enough to restore them. -/
def Layer.Decodes (l : Layer β) (lost : Finset ℕ) : Prop :=
  0 < (l.chunksAsSet ∩ lost).card ∧ (l.chunksAsSet ∩ lost).card ≤ l.erasureCode.codingChunkCount

theorem decodeLayer_erasures {s s' : Decoding β} (h : decodeLayer want s l = some s') :
    s'.erasures = s.erasures \ l.chunksAsSet ∧ s'.wantToReadErasures = s'.erasures ∩ want := by
  obtain ⟨w, -, rfl⟩ := map_eq_some_iff.mp h
  exact ⟨rfl, rfl⟩

/-- **What is lost after the loop of the decoder**: what is lost after the pass over the layers,
unless it stops when all that is wanted is there. It knows what is wanted and lost only if it has
decoded a layer. -/
theorem decodeLoop_erasures {s t : Decoding β} (h : decodeLoop want ls s = some t) :
    pass (ls.map Layer.group) s.erasures ⊆ t.erasures ∧
      (t.erasures ∩ want = ∅ ∨ t.erasures = pass (ls.map Layer.group) s.erasures) ∧
      (t = s ∧ (∀ l ∈ ls, ¬ l.Decodes s.erasures) ∨
        t.wantToReadErasures = t.erasures ∩ want) := by
  induction ls generalizing s with
  | nil =>
    cases h
    exact ⟨Finset.Subset.refl _, .inr rfl, .inl ⟨rfl, fun l hl => absurd hl List.not_mem_nil⟩⟩
  | cons l ls ih =>
    rw [decodeLoop] at h
    rw [List.map_cons, pass_cons]
    split_ifs at h with hskip
    · have hsame : l.group.restore s.erasures = s.erasures := by
        rcases hskip with hmany | hzero
        · exact Group.restore_of_lt hmany
        · exact Group.restore_of_inter_eq_empty (card_eq_zero.mp hzero)
      have hno : ¬ l.Decodes s.erasures := by
        rintro ⟨hpos, hle⟩
        omega
      rw [hsame]
      obtain ⟨hsub, hlost, hknown⟩ := ih h
      refine ⟨hsub, hlost, hknown.imp_left ?_⟩
      exact fun h => ⟨h.1, List.forall_mem_cons.mpr ⟨hno, h.2⟩⟩
    · rw [not_or, not_lt] at hskip
      obtain ⟨s', hs', h⟩ := bind_eq_some_iff.mp h
      obtain ⟨herasures, hwant'⟩ := decodeLayer_erasures want hs'
      have hrestore : l.group.restore s.erasures = s'.erasures := by
        rw [herasures]
        exact Group.restore_of_le hskip.1
      rw [hrestore]
      split_ifs at h with hdone
      · cases h
        rw [card_eq_zero, hwant'] at hdone
        exact ⟨pass_subset _ _, .inl hdone, .inr hwant'⟩
      · obtain ⟨hsub, hlost, hknown⟩ := ih h
        refine ⟨hsub, hlost, .inr ?_⟩
        rcases hknown with ⟨rfl, -⟩ | hknown
        · exact hwant'
        · exact hknown

/-- The loop ends with nothing of what is wanted lost, and knows it, if the pass restores it. -/
theorem decodeLoop_done {s t : Decoding β} (h : decodeLoop want ls s = some t)
    (hstart : s.erasures ∩ want = ∅ → s.wantToReadErasures = ∅)
    (hpass : pass (ls.map Layer.group) s.erasures ∩ want = ∅) :
    t.erasures ∩ want = ∅ ∧ t.wantToReadErasures = ∅ := by
  obtain ⟨-, hlost, hknown⟩ := decodeLoop_erasures want h
  have hdone : t.erasures ∩ want = ∅ := by
    rcases hlost with hdone | hsame
    · exact hdone
    · rw [hsame, hpass]
  refine ⟨hdone, ?_⟩
  rcases hknown with ⟨rfl, -⟩ | hsame
  · exact hstart hdone
  · rw [hsame, hdone]

/-- **The loop of the decoder** goes through, and what is not lost is right. -/
theorem decodeLoop_spec (hls : ∀ l ∈ ls, Usable n orig l) {s : Decoding β} (hs : Right n orig s) :
    ∃ t, decodeLoop want ls s = some t ∧ Right n orig t := by
  induction ls generalizing s with
  | nil => exact ⟨s, rfl, hs⟩
  | cons l ls ih =>
    have hl := hls l List.mem_cons_self
    have hrest := fun l' hl' => hls l' (List.mem_cons_of_mem _ hl')
    rw [decodeLoop]
    split_ifs with hskip
    · exact ih hrest hs
    · rw [not_or, not_lt] at hskip
      obtain ⟨hle, hpos⟩ := hskip
      have hcoding : l.coding ≠ [] := by
        intro hnil
        rw [hl.sound.count, hnil] at hle
        exact hpos (Nat.le_zero.mp hle)
      obtain ⟨s', hs', hright⟩ :=
        decodeLayer_spec want hl.length hl.sound (hl.word hcoding) hs hle
      rw [hs', bind_some]
      split_ifs
      · exact ⟨s', rfl, hright⟩
      · exact ih hrest hright

theorem right_start {present : Finset ℕ} {decoded : ℕ → β}
    (hdecoded : ∀ c ∈ present, decoded c = orig c) :
    Right n orig ⟨Finset.range n \ present, decoded, ∅⟩ := by
  refine ⟨sdiff_subset, fun c hc hlost => hdecoded c ?_⟩
  by_contra hno
  exact hlost (mem_sdiff.mpr ⟨hc, hno⟩)

/-- **Decoding from the chunks of a set**: all that is wanted is right, if the pass over the layers
restores it. -/
theorem decodeChunks_spec {want present : Finset ℕ} (hlayers : ∀ l ∈ layers, Usable n orig l)
    (hin : want ⊆ Finset.range n)
    (hpass : pass (layers.reverse.map Layer.group) (Finset.range n \ present) ∩ want = ∅)
    {decoded : ℕ → β} (hdecoded : ∀ c ∈ present, decoded c = orig c) :
    ∃ d, decodeChunks n layers want present decoded = some d ∧ ∀ c ∈ want, d c = orig c := by
  obtain ⟨s, hloop, hright⟩ := decodeLoop_spec want
    (fun l hl => hlayers l (List.mem_reverse.mp hl)) (right_start hdecoded)
  obtain ⟨hdone, hzero⟩ := decodeLoop_done want hloop (fun _ => rfl) hpass
  refine ⟨s.decoded, ?_, fun c hc => hright.decoded c (hin hc) fun hlost => ?_⟩
  · rw [decodeChunks, hloop, bind_some, hzero, card_empty, if_neg (lt_irrefl 0)]
  · exact notMem_empty c (hdone ▸ mem_inter.mpr ⟨hlost, hc⟩)

/-! ## The plan -/

/-- What holds of a plan: what is wanted and not recovered is known. -/
structure Plan.Ok (total want : Finset ℕ) (p : Plan) : Prop where
  within : p.erasuresNotRecovered ⊆ total
  want : p.erasuresWant = p.erasuresNotRecovered ∩ want

/-- **One turn of the plan**: either nothing is recovered, or the layer is used. -/
theorem planLayer_cases (p : Plan) (l : Layer β) :
    ((planLayer want p l).erasuresNotRecovered = p.erasuresNotRecovered ∧
      (planLayer want p l).erasuresWant = p.erasuresWant ∧
        p.minimum ⊆ (planLayer want p l).minimum ∧
          (planLayer want p l).minimum ⊆ p.minimum ∪ l.chunksAsSet) ∨
    ((l.chunksAsSet ∩ p.erasuresNotRecovered).card ≤ l.erasureCode.codingChunkCount ∧
      planLayer want p l = ⟨p.erasuresNotRecovered \ (l.chunksAsSet ∩ p.erasuresNotRecovered),
        p.erasuresWant \ (l.chunksAsSet ∩ p.erasuresNotRecovered),
        p.minimum ∪ (l.chunksAsSet \ p.erasuresNotRecovered)⟩) := by
  unfold planLayer
  dsimp only
  split
  · exact .inl ⟨rfl, rfl, Finset.Subset.refl _, subset_union_left⟩
  · split
    · exact .inl ⟨rfl, rfl, subset_union_left,
        union_subset_union_right inter_subset_right⟩
    · split
      · exact .inl ⟨rfl, rfl, Finset.Subset.refl _, subset_union_left⟩
      · rename_i hfew
        exact .inr ⟨not_lt.mp hfew, rfl⟩

theorem planLayer_minimum (p : Plan) (l : Layer β) : p.minimum ⊆ (planLayer want p l).minimum := by
  rcases planLayer_cases want p l with ⟨-, -, hmin, -⟩ | ⟨-, hused⟩
  · exact hmin
  · rw [hused]
    exact subset_union_left

theorem planLayer_minimum_subset (p : Plan) (l : Layer β) :
    (planLayer want p l).minimum ⊆ p.minimum ∪ l.chunksAsSet := by
  rcases planLayer_cases want p l with ⟨-, -, -, hmin⟩ | ⟨-, hused⟩
  · exact hmin
  · rw [hused]
    exact union_subset_union_right sdiff_subset

theorem planLayers_minimum (ls : List (Layer β)) (p : Plan) :
    p.minimum ⊆ (ls.foldl (planLayer want) p).minimum := by
  induction ls generalizing p with
  | nil => exact Finset.Subset.refl _
  | cons l ls ih => exact (planLayer_minimum want p l).trans (ih (planLayer want p l))

theorem planLayers_minimum_subset (hls : ∀ l ∈ ls, l.chunksMap.length = n)
    (hp : p.minimum ⊆ Finset.range n) : (ls.foldl (planLayer want) p).minimum ⊆ Finset.range n := by
  induction ls generalizing p with
  | nil => exact hp
  | cons l ls ih =>
    apply ih fun l' hl' => hls l' (List.mem_cons_of_mem _ hl')
    apply (planLayer_minimum_subset want p l).trans
    apply union_subset hp
    rw [← hls l List.mem_cons_self]
    exact l.chunksAsSet_subset

theorem planLayer_ok {total want : Finset ℕ} (hp : p.Ok total want) (l : Layer β) :
    (planLayer want p l).Ok total want := by
  rcases planLayer_cases want p l with ⟨hnot, hwant, -, -⟩ | ⟨-, hused⟩
  · exact ⟨by rw [hnot]; exact hp.within, by rw [hnot, hwant, hp.want]⟩
  · rw [hused]
    refine ⟨sdiff_subset.trans hp.within, ?_⟩
    show p.erasuresWant \ _ = _
    rw [hp.want, sdiff_inter_right_comm]

theorem planLayers_ok {total want : Finset ℕ} (ls : List (Layer β)) (hp : p.Ok total want) :
    (ls.foldl (planLayer want) p).Ok total want := by
  induction ls generalizing p with
  | nil => exact hp
  | cons l ls ih => exact ih (planLayer_ok hp l)

/-- **The pass keeps up with the plan.** The pass sees every chunk that is not read as lost; still,
what is missing and has been recovered in the plan is recovered in the pass. -/
theorem pass_follows_plan {total want minimum : Finset ℕ} (hp : p.Ok total want) (lost : Finset ℕ)
    (hread : Disjoint lost minimum)
    (hminimum : (ls.foldl (planLayer want) p).minimum \ total ⊆ minimum)
    (hlost : lost ∩ total ⊆ p.erasuresNotRecovered) :
    pass (ls.map Layer.group) lost ∩ total ⊆
      (ls.foldl (planLayer want) p).erasuresNotRecovered := by
  induction ls generalizing p lost with
  | nil => exact hlost
  | cons l ls ih =>
    rw [List.map_cons, pass_cons]
    apply ih (planLayer_ok hp l) _ (hread.mono_left (l.group.restore_subset lost)) hminimum
    rcases planLayer_cases want p l with ⟨hnot, -, -, -⟩ | ⟨hfew, hused⟩
    · rw [hnot]
      exact (inter_subset_inter_right (l.group.restore_subset lost)).trans hlost
    · -- what the pass lacks in this layer was lost in the plan too
      have hsub : l.chunksAsSet ∩ lost ⊆ l.chunksAsSet ∩ p.erasuresNotRecovered := by
        intro c hc
        obtain ⟨hcl, hclost⟩ := mem_inter.mp hc
        refine mem_inter.mpr ⟨hcl, ?_⟩
        by_contra hrecovered
        have htotal : c ∉ total := fun h =>
          hrecovered (hlost (mem_inter.mpr ⟨hclost, h⟩))
        have hmin : c ∈ (planLayer want p l).minimum := by
          rw [hused]
          exact mem_union_right _ (mem_sdiff.mpr ⟨hcl, hrecovered⟩)
        exact disjoint_left.mp hread hclost (hminimum (mem_sdiff.mpr
          ⟨planLayers_minimum want ls _ hmin, htotal⟩))
      have hrestore : l.group.restore lost = lost \ l.chunksAsSet :=
        Group.restore_of_le ((card_le_card hsub).trans hfew)
      rw [hrestore, hused]
      intro c hc
      obtain ⟨hcl, htotal⟩ := mem_inter.mp hc
      obtain ⟨hclost, hno⟩ := mem_sdiff.mp hcl
      refine mem_sdiff.mpr ⟨hlost (mem_inter.mpr ⟨hclost, htotal⟩), ?_⟩
      exact fun h => hno (mem_inter.mp h).1

/-- The third case of the plan is a pass over the layers. -/
theorem recoverLayers_eq_pass (ls : List (Layer β)) (lost : Finset ℕ) :
    ls.foldl recoverLayer lost = pass (ls.map Layer.group) lost := by
  induction ls generalizing lost with
  | nil => rfl
  | cons l ls ih =>
    rw [List.foldl_cons, ih, List.map_cons, pass_cons]
    congr 1
    unfold recoverLayer
    by_cases hnone : l.chunksAsSet ∩ lost = ∅
    · rw [if_pos hnone]
      exact (Group.restore_of_inter_eq_empty hnone).symm
    · rw [if_neg hnone]
      have hpos : 0 < (l.chunksAsSet ∩ lost).card :=
        card_pos.mpr (nonempty_iff_ne_empty.mpr hnone)
      by_cases hfew : (l.chunksAsSet ∩ lost).card ≤ l.erasureCode.codingChunkCount
      · rw [if_pos ⟨hpos, hfew⟩, sdiff_inter_self_right]
        exact (Group.restore_of_le (g := l.group) hfew).symm
      · rw [if_neg fun h => hfew h.2]
        exact (Group.restore_of_lt (not_le.mp hfew)).symm

/-- A plan that recovers all that is wanted: the chunks it reads are available, and the pass that
starts from them restores all that is wanted. -/
theorem plan_spec {want available : Finset ℕ} (hlayers : ∀ l ∈ layers, l.chunksMap.length = n)
    (hin : want ⊆ Finset.range n) (hp : p = plan layers (Finset.range n \ available) want)
    (hdone : p.erasuresWant = ∅) {minimum : Finset ℕ}
    (hminimum : minimum = (p.minimum ∪ want) \ (Finset.range n \ available)) :
    minimum ⊆ available ∧
      pass (layers.reverse.map Layer.group) (Finset.range n \ minimum) ∩ want = ∅ := by
  have hstart : (⟨Finset.range n \ available, (Finset.range n \ available) ∩ want, ∅⟩ : Plan).Ok
      (Finset.range n \ available) want := ⟨Finset.Subset.refl _, rfl⟩
  have hok : p.Ok (Finset.range n \ available) want := hp ▸ planLayers_ok layers.reverse hstart
  have hmin : p.minimum ⊆ Finset.range n := by
    rw [hp]
    exact planLayers_minimum_subset want (fun l hl => hlayers l (List.mem_reverse.mp hl))
      (empty_subset _)
  have hread : p.minimum \ (Finset.range n \ available) ⊆ minimum := by
    rw [hminimum]
    exact sdiff_subset_sdiff subset_union_left (Finset.Subset.refl _)
  have hfollows : pass (layers.reverse.map Layer.group) (Finset.range n \ minimum) ∩
      (Finset.range n \ available) ⊆ p.erasuresNotRecovered := by
    rw [hp] at hread ⊢
    exact pass_follows_plan hstart _ sdiff_disjoint hread inter_subset_right
  refine ⟨?_, ?_⟩
  · intro c hc
    rw [hminimum] at hc
    obtain ⟨hc, hthere⟩ := mem_sdiff.mp hc
    by_contra hmissing
    exact hthere (mem_sdiff.mpr ⟨union_subset hmin hin hc, hmissing⟩)
  · apply eq_empty_of_forall_notMem
    intro c hc
    obtain ⟨hcpass, hcwant⟩ := mem_inter.mp hc
    have hclost := mem_sdiff.mp (pass_subset _ _ hcpass)
    by_cases htotal : c ∈ Finset.range n \ available
    · -- it would be wanted and not recovered in the plan
      have hmem := mem_inter.mpr
        ⟨hfollows (mem_inter.mpr ⟨hcpass, htotal⟩), hcwant⟩
      rw [← hok.want, hdone] at hmem
      exact notMem_empty c hmem
    · apply hclost.2
      rw [hminimum]
      exact mem_sdiff.mpr ⟨mem_union_right _ hcwant, htotal⟩

/-- **The planned chunks are available, and the pass that starts from them restores all that is
wanted.** -/
theorem minimumToDecode_spec {want available minimum : Finset ℕ}
    (hlayers : ∀ l ∈ layers, l.chunksMap.length = n) (hin : want ⊆ Finset.range n)
    (h : minimumToDecode n layers want available = some minimum) :
    minimum ⊆ available ∧
      pass (layers.reverse.map Layer.group) (Finset.range n \ minimum) ∩ want = ∅ := by
  unfold minimumToDecode at h
  dsimp only at h
  split at h
  · -- nothing that is wanted is missing
    rename_i hnone
    cases h
    refine ⟨?_, ?_⟩
    · intro c hc
      by_contra hmissing
      have hmem : c ∈ (Finset.range n \ available) ∩ want :=
        mem_inter.mpr ⟨mem_sdiff.mpr ⟨hin hc, hmissing⟩, hc⟩
      exact notMem_empty c (hnone ▸ hmem)
    · have hsub := inter_subset_inter (pass_subset (layers.reverse.map Layer.group)
        (Finset.range n \ want)) (Finset.Subset.refl want)
      rw [sdiff_inter_self] at hsub
      exact subset_empty.mp hsub
  · split at h
    · -- the plan recovers all that is wanted
      rename_i hdone
      cases h
      exact plan_spec hlayers hin rfl hdone rfl
    · split at h
      · -- the pass restores everything
        rename_i hall
        cases h
        rw [recoverLayers_eq_pass] at hall
        exact ⟨Finset.Subset.refl _, by rw [hall, empty_inter]⟩
      · cases h

end Ceph.ErasureCode
