import Ceph.ErasureCode.LrcPlan

set_option autoImplicit false

/-! # Some of the chunks

`decode_chunks` succeeds if no chunk that is wanted is left, but it looks for them only after a
layer was decoded. If all layers are skipped, it succeeds and has restored nothing. It also decodes
layers that `encode_chunks` has left out, whose chunks do not belong together.

`encode_chunks` starts with the last layer that has all chunks that are wanted. The layers before it
may compute chunks of this layer, which are then new memory.
-/

namespace Ceph.ErasureCode

open List Layer RecoveryPass

variable {β : Type} {n : ℕ} {want : Finset ℕ} {l : Layer β} {layers ls ks : List (Layer β)}

/-! ## Decoding -/

/-- **Success is true**: if the decoder succeeds with some chunks of an encoding of all chunks, all
that is wanted is as it was, whatever is in the buffers of the others. -/
def Truthful (n : ℕ) (layers : List (Layer β)) (want present : Finset ℕ) : Prop :=
  ∀ init orig decoded d, encodeChunks layers (Finset.range n) init = some orig →
    (∀ c ∈ present, decoded c = orig c) → decodeChunks n layers want present decoded = some d →
      ∀ c ∈ want, d c = orig c

/-- The code leaves the buffers that it is given. -/
def Layer.Keeps (l : Layer β) : Prop :=
  ∀ want known d w, Completes known d → l.erasureCode.decodeChunks want known d = some w →
    Completes known w

theorem decodeLayer_keeps (hl : l.Keeps) {s s' : Decoding β} (h : decodeLayer want s l = some s')
    {c : ℕ} (hc : c ∉ s.erasures) : s'.decoded c = s.decoded c := by
  obtain ⟨w, hw, rfl⟩ := Option.map_eq_some_iff.mp h
  have hbefore : Completes (l.chunks.map fun c => if c ∈ s.erasures then none else
      some (s.decoded c)) (l.chunks.map s.decoded) := by
    rw [Completes, forall₂_map_left_iff, forall₂_map_right_iff, forall₂_same]
    intro c _
    by_cases hlost : c ∈ s.erasures
    · exact .inl (if_pos hlost)
    · exact .inr (if_neg hlost)
  have hafter := hl _ _ _ w hbefore hw
  have hlength : w.length = l.chunks.length := by
    rw [← hafter.length_eq, length_map]
  rw [← map_scatter l.nodup_chunks hlength s.decoded, Completes, forall₂_map_left_iff,
    forall₂_map_right_iff, forall₂_same] at hafter
  by_cases hmem : c ∈ l.chunks
  · have hknown := hafter c hmem
    rw [if_neg hc] at hknown
    exact (Option.some.inj (hknown.resolve_left (by simp))).symm
  · exact scatter_of_not_mem hmem w s.decoded

theorem decodeLoop_keeps (hls : ∀ l ∈ ls, l.Keeps) {s t : Decoding β}
    (h : decodeLoop want ls s = some t) {c : ℕ} (hc : c ∉ s.erasures) :
    t.decoded c = s.decoded c := by
  induction ls generalizing s with
  | nil =>
    cases h
    rfl
  | cons l ls ih =>
    rw [forall_mem_cons] at hls
    rw [decodeLoop] at h
    split_ifs at h
    · exact ih hls.2 h hc
    · obtain ⟨s', hs', h⟩ := Option.bind_eq_some_iff.mp h
      have hkeeps := decodeLayer_keeps hls.1 hs' hc
      split_ifs at h
      · cases h
        exact hkeeps
      · have hc' : c ∉ s'.erasures := by
          rw [(decodeLayer_erasures want hs').1]
          exact fun hlost => hc (Finset.mem_sdiff.mp hlost).1
        rw [ih hls.2 h hc', hkeeps]

/-- The loop over more layers stops where it did, or goes on from there. -/
theorem decodeLoop_append (ks : List (Layer β)) {s t : Decoding β}
    (h : decodeLoop want ls s = some t) :
    (decodeLoop want (ls ++ ks) s = some t ∧ t.erasures ∩ want = ∅) ∨
      decodeLoop want (ls ++ ks) s = decodeLoop want ks t := by
  induction ls generalizing s with
  | nil =>
    cases h
    exact .inr rfl
  | cons l ls ih =>
    rw [decodeLoop] at h
    rw [cons_append, decodeLoop]
    split_ifs at h ⊢
    · exact ih h
    · obtain ⟨s', hs', h⟩ := Option.bind_eq_some_iff.mp h
      rw [hs', Option.bind_some]
      split_ifs at h ⊢ with hdone
      · cases h
        rw [Finset.card_eq_zero, (decodeLayer_erasures want hs').2] at hdone
        exact .inl ⟨rfl, hdone⟩
      · exact ih h

theorem decodeLoop_of_not_decodes {s : Decoding β} (h : ∀ l ∈ ls, ¬ l.Decodes s.erasures) :
    decodeLoop want ls s = some s := by
  induction ls with
  | nil => rfl
  | cons l ls ih =>
    rw [forall_mem_cons] at h
    rw [decodeLoop, if_pos ?_]
    · exact ih h.2
    · by_contra hcan
      exact h.1 ⟨by omega, by omega⟩

theorem reverse_layers (n : ℕ) (layers : List (Layer β)) :
    layers.reverse = (encodedLayers n layers).reverse ++ (skippedLayers n layers).reverse := by
  rw [← reverse_append, skippedLayers_append]

theorem inter_ne_empty_of_mem {lost : Finset ℕ} {x : ℕ} (hx : x ∈ want) (h : x ∈ lost) :
    lost ∩ want ≠ ∅ :=
  Finset.nonempty_iff_ne_empty.mp ⟨x, Finset.mem_inter.mpr ⟨h, hx⟩⟩

/-- If the decoder succeeds only after layers that were left out, then not with the chunk that was
encoded: the layers are right for a value of the chunk that it does not have. -/
theorem pass_encoded_of_truthful [Nontrivial β] (h : Layered n layers)
    (hin : want ⊆ Finset.range n) {present : Finset ℕ} (htrue : Truthful n layers want present)
    (hall : pass (layers.reverse.map Layer.group) (Finset.range n \ present) ∩ want = ∅) :
    pass ((encodedLayers n layers).reverse.map Layer.group) (Finset.range n \ present) ∩ want =
      ∅ := by
  rw [reverse_layers n, map_append, pass_append] at hall
  by_contra hlost
  obtain ⟨x, hx⟩ := Finset.nonempty_iff_ne_empty.mpr hlost
  obtain ⟨hxlost, hxwant⟩ := Finset.mem_inter.mp hx
  -- a layer that was left out restores the chunk
  obtain ⟨group, hgroup, hxgroup⟩ := exists_mem_of_not_mem_pass hxlost
    fun hmem => inter_ne_empty_of_mem hxwant hmem hall
  obtain ⟨l, hl, rfl⟩ := mem_map.mp hgroup
  have hl : l ∈ skippedLayers n layers := mem_reverse.mp hl
  obtain ⟨y, -⟩ := exists_pair_ne β
  obtain ⟨g, -, hwords, -⟩ := encodeLayers_spec h fun _ => y
  obtain ⟨v, hv⟩ := exists_ne (g x)
  obtain ⟨orig, hencode, -, hframe⟩ := h.encodeChunks_spec (Function.update g x v)
  have hxv : orig x = v := by rw [hframe l hl x hxgroup, Function.update_self]
  -- the layers that were encoded
  have hright₀ : Right n orig ⟨Finset.range n \ present, orig, ∅⟩ := right_start fun c _ => rfl
  have husable₀ : ∀ k ∈ (encodedLayers n layers).reverse, Usable n orig k :=
    fun k hk => h.usable hencode (mem_reverse.mp hk)
  obtain ⟨s, hs, hright⟩ := decodeLoop_spec want husable₀ hright₀
  obtain ⟨hsub, hpass, -⟩ := decodeLoop_erasures want hs
  have hxs : x ∈ s.erasures := hsub hxlost
  have hpass := hpass.resolve_left (inter_ne_empty_of_mem hxwant hxs)
  have hloop := (decodeLoop_append (skippedLayers n layers).reverse hs).resolve_left
    fun hstop => inter_ne_empty_of_mem hxwant hxs hstop.2
  -- those left out are right for the other value
  have husable : ∀ k ∈ (skippedLayers n layers).reverse,
      Usable n (Function.update orig x (g x)) k := by
    intro k hk
    rw [mem_reverse] at hk
    refine ⟨h.length k (mem_of_skipped hk), h.sound k (mem_of_skipped hk), fun _ => ?_⟩
    refine (hwords k (mem_of_skipped hk)).congr fun c hc => ?_
    by_cases hcx : c = x
    · rw [hcx, Function.update_self]
    · rw [Function.update_of_ne hcx, hframe k hk c ((k.mem_chunksAsSet c).mpr hc),
        Function.update_of_ne hcx]
  have hright' : Right n (Function.update orig x (g x)) s := by
    refine ⟨hright.within, fun c hc hclost => ?_⟩
    rw [hright.decoded c hc hclost, Function.update_of_ne]
    rintro rfl
    exact hclost hxs
  obtain ⟨t, ht, hrightt⟩ := decodeLoop_spec want husable hright'
  obtain ⟨hdone, hzero⟩ := decodeLoop_done want ht
    (fun hnone => absurd hnone (inter_ne_empty_of_mem hxwant hxs)) (by rw [hpass, hall])
  have hdecode : decodeChunks n layers want present orig = some t.decoded := by
    rw [decodeChunks, reverse_layers n, hloop, ht, Option.bind_some, hzero, Finset.card_empty,
      if_neg (lt_irrefl 0)]
  have hsuccess := htrue _ orig orig t.decoded hencode (fun c _ => rfl) hdecode x hxwant
  have hxt := hrightt.decoded x (hin hxwant) fun hmem => inter_ne_empty_of_mem hxwant hmem hdone
  rw [hsuccess, hxv, Function.update_self] at hxt
  exact hv hxt

/-- If no layer can be decoded, the decoder succeeds and changes nothing. Then nothing wanted may be
lost: its buffer can hold anything. -/
theorem decodes_of_truthful [Nontrivial β] (h : Layered n layers) {present : Finset ℕ}
    (htrue : Truthful n layers want present) :
    want ⊆ present ∨ ∃ l ∈ layers, l.Decodes (Finset.range n \ present) := by
  by_contra hcond
  rw [not_or, Finset.not_subset] at hcond
  obtain ⟨⟨x, hx, hlost⟩, hnone⟩ := hcond
  obtain ⟨y, -⟩ := exists_pair_ne β
  obtain ⟨orig, hencode, -⟩ := h.encodeChunks_spec fun _ => y
  obtain ⟨v, hv⟩ := exists_ne (orig x)
  have hdecoded : ∀ c ∈ present, Function.update orig x v c = orig c := by
    intro c hc
    refine Function.update_of_ne ?_ v orig
    rintro rfl
    exact hlost hc
  have hloop : decodeLoop want layers.reverse
      ⟨Finset.range n \ present, Function.update orig x v, ∅⟩ =
        some ⟨Finset.range n \ present, Function.update orig x v, ∅⟩ :=
    decodeLoop_of_not_decodes fun l hl hdecodes => hnone ⟨l, mem_reverse.mp hl, hdecodes⟩
  have hsuccess := htrue _ orig _ (Function.update orig x v) hencode hdecoded
    (by rw [decodeChunks, hloop]; rfl) x hx
  rw [Function.update_self] at hsuccess
  exact hv hsuccess

/-- **Locally repairable codes: the decoder never reports false success**, exactly if nothing wanted
is lost or some layer can be decoded at once, and if the layers that were encoded restore all that
is wanted whenever all layers do. -/
theorem decode_truthful_iff [Nontrivial β] (h : Layered n layers)
    (hkeeps : ∀ l ∈ skippedLayers n layers, l.Keeps) (hin : want ⊆ Finset.range n)
    (present : Finset ℕ) :
    Truthful n layers want present ↔
      (want ⊆ present ∨ ∃ l ∈ layers, l.Decodes (Finset.range n \ present)) ∧
      (pass (layers.reverse.map Layer.group) (Finset.range n \ present) ∩ want = ∅ →
        pass ((encodedLayers n layers).reverse.map Layer.group) (Finset.range n \ present) ∩ want =
          ∅) := by
  constructor
  · intro htrue
    exact ⟨decodes_of_truthful h htrue, pass_encoded_of_truthful h hin htrue⟩
  · rintro ⟨hcond, hpasses⟩ init orig decoded d hencode hdecoded hdecode c hc
    rw [decodeChunks] at hdecode
    obtain ⟨t, hloop, hend⟩ := Option.bind_eq_some_iff.mp hdecode
    rw [Option.ite_none_left_eq_some] at hend
    obtain ⟨hleft, hd⟩ := hend
    cases hd
    have husable : ∀ k ∈ (encodedLayers n layers).reverse, Usable n orig k :=
      fun k hk => h.usable hencode (mem_reverse.mp hk)
    obtain ⟨s, hs, hright⟩ := decodeLoop_spec want husable (right_start (n := n) hdecoded)
    by_cases hdone : s.erasures ∩ want = ∅
    · -- what is wanted is right, and stays so
      have hcs : c ∉ s.erasures := fun hmem => inter_ne_empty_of_mem hc hmem hdone
      rw [reverse_layers n] at hloop
      rcases decodeLoop_append (skippedLayers n layers).reverse hs with ⟨hstop, -⟩ | hgoes
      · cases hstop.symm.trans hloop
        exact hright.decoded c (hin hc) hcs
      · rw [hgoes] at hloop
        rw [decodeLoop_keeps (fun l hl => hkeeps l (mem_reverse.mp hl)) hloop hcs]
        exact hright.decoded c (hin hc) hcs
    · -- some of it is lost for good
      have hpass := ((decodeLoop_erasures want hs).2.1).resolve_left hdone
      obtain ⟨hsub, -, hknown⟩ := decodeLoop_erasures want hloop
      obtain ⟨x, hx⟩ : (pass (layers.reverse.map Layer.group) (Finset.range n \ present) ∩
          want).Nonempty := by
        rw [Finset.nonempty_iff_ne_empty]
        exact fun hall => hdone (by rw [hpass, hpasses hall])
      obtain ⟨hxlost, hxwant⟩ := Finset.mem_inter.mp hx
      rcases hknown with ⟨rfl, hno⟩ | hknown
      · rcases hcond with hpresent | ⟨l, hl, hdecodes⟩
        · exact hdecoded c (hpresent hc)
        · exact absurd hdecodes (hno l (mem_reverse.mpr hl))
      · refine absurd ?_ hleft
        rw [hknown, gt_iff_lt, Finset.card_pos]
        exact ⟨x, Finset.mem_inter.mpr ⟨hsub hxlost, hxwant⟩⟩

/-- One layer with two data chunks. -/
def oneLayer : List (Layer UInt8) := [⟨[.data, .data, .coding], parityCode⟩]

theorem decode_truthful_oneLayer : Truthful 3 oneLayer {1} {0, 2} := by
  have h : Layered 3 oneLayer := by
    refine ⟨?_, ?_, pairwise_singleton _ _⟩
    · simp [oneLayer]
    · intro l hl
      cases mem_singleton.mp hl
      exact parityCode_sound _ rfl
  have hnone : skippedLayers 3 oneLayer = [] := by simp [skippedLayers, oneLayer, encodeTop]
  refine (decode_truthful_iff h (fun l hl => absurd hl (by simp [hnone])) (by decide) _).mpr
    ⟨.inr ⟨_, mem_singleton_self _, ?_⟩, fun hall => hall⟩
  unfold Layer.Decodes
  decide

/-- **Success with nothing restored**: of the bytes 1 and 2 and their parity only the first is left,
and the second is wanted. -/
theorem decodeChunks_oneLayer_false_success :
    ∃ orig d, encodeChunks oneLayer (Finset.range 3) (fun c => if c = 0 then 1 else 2) = some orig ∧
      decodeChunks 3 oneLayer {1} {0} (fun c => if c = 0 then orig c else 0) = some d ∧
        orig 1 = 2 ∧ d 1 = 0 := by
  refine ⟨_, _, rfl, rfl, ?_⟩
  decide

/-! ## Encoding -/

/-- The buffers that `encode_chunks` leaves: an error ends it, with those of the layers before. -/
def encodedUpto (want : Finset ℕ) : List (Layer β) → (ℕ → β) → ℕ → β
  | [], encoded => encoded
  | l :: rest, encoded =>
    match encodeLayer want encoded l with
    | none => encoded
    | some encoded' => encodedUpto want rest encoded'

/-- `encode`, with the chunks that `encode_prepare` gives. An error of `encode_chunks` is not looked
at, and the chunks that are not wanted are erased. -/
def encode (layers : List (Layer β)) (want : Finset ℕ) (prepared : ℕ → β) (c : ℕ) : Option β :=
  if c ∈ want then
    some (encodedUpto want (layers.drop (encodeTop want layers.reverse)) prepared c)
  else none

theorem encodedUpto_of_foldlM {f g : ℕ → β} (h : ls.foldlM (encodeLayer want) f = some g) :
    encodedUpto want ls f = g := by
  induction ls generalizing f with
  | nil =>
    cases h
    rfl
  | cons l ls ih =>
    rw [foldlM_cons] at h
    obtain ⟨f', hf', h⟩ := Option.bind_eq_some_iff.mp h
    rw [encodedUpto, hf']
    exact ih h

/-- Without errors, what is wanted is what `encode_chunks` gives. -/
theorem encode_of_encodeChunks {p f : ℕ → β} (h : encodeChunks layers want p = some f) {c : ℕ}
    (hc : c ∈ want) : encode layers want p c = some (f c) := by
  rw [encode, if_pos hc, encodedUpto_of_foldlM h]

/-- The code computes the coding chunks from the data, whatever is wanted. -/
def Layer.Computes (l : Layer β) (code : List β → List β) : Prop :=
  ∀ want b, b.length = l.chunks.length → l.erasureCode.encodeChunks want b =
    some (b.take l.data.length ++ code (b.take l.data.length)) ∧
      (code (b.take l.data.length)).length = l.coding.length

/-- The same object was prepared twice: the buffers of coding chunks are new memory. -/
def SameObject (layers : List (Layer β)) (p q : ℕ → β) : Prop :=
  ∀ c, (∀ l ∈ layers, c ∉ l.coding) → p c = q c

def Layer.recode (code : Layer β → LayerCode β) (l : Layer β) : Layer β :=
  { l with erasureCode := code l }

/-- **The chunks that are wanted are those of the full encoding**, for all codes of the layers and
all objects. -/
def SubsetAgrees (n : ℕ) (layers : List (Layer β)) (want : Finset ℕ) : Prop :=
  ∀ code, (∀ l ∈ layers, ∃ c, (l.recode code).Computes c) → ∀ p q, SameObject layers p q →
    (encodeChunks (layers.map (recode code)) want p).isSome ∧
      (encodeChunks (layers.map (recode code)) (Finset.range n) q).isSome ∧
        ∀ c ∈ want, encode (layers.map (recode code)) want p c =
          encode (layers.map (recode code)) (Finset.range n) q c

/-- The chunks that can differ after a layer was encoded. -/
def spread (tainted : Finset ℕ) (l : Layer β) : Finset ℕ :=
  if Disjoint l.data.toFinset tainted then tainted \ l.coding.toFinset
  else tainted ∪ l.coding.toFinset

/-- The chunks that depend on new memory. -/
def tainted (want : Finset ℕ) (layers : List (Layer β)) : Finset ℕ :=
  (layers.drop (encodeTop want layers.reverse)).foldl spread (layers.flatMap coding).toFinset

theorem encodeLayer_of_computes {code : List β → List β} (hl : l.Computes code) (want : Finset ℕ)
    (f : ℕ → β) : ∃ g, encodeLayer want f l = some g ∧ (∀ c, c ∉ l.coding → g c = f c) ∧
      l.coding.map g = code (l.data.map f) := by
  obtain ⟨hencode, hlen⟩ := hl (l.localWant want) (l.chunks.map f) (length_map _)
  have htake : (l.chunks.map f).take l.data.length = l.data.map f := by
    rw [chunks, map_append, take_left' (length_map _)]
  rw [htake] at hencode hlen
  have hlength : (l.data.map f ++ code (l.data.map f)).length = l.chunks.length := by
    rw [length_append, length_map, hlen, chunks, length_append]
  have hmap := map_scatter l.nodup_chunks hlength f
  rw [chunks, map_append] at hmap
  obtain ⟨hdata, hcoding⟩ := append_inj hmap (by rw [length_map, length_map])
  refine ⟨_, by rw [encodeLayer, hencode]; rfl, fun c hc => ?_, hcoding⟩
  by_cases hmem : c ∈ l.data
  · exact map_inj_left.mp hdata c hmem
  · refine scatter_of_not_mem ?_ _ f
    rw [mem_append, not_or]
    exact ⟨hmem, hc⟩

/-! ### Two encodings -/

/-- **One layer is encoded twice.** -/
theorem encodeLayer_agree {code : List β → List β} (hl : l.Computes code) (want want' : Finset ℕ)
    {t : Finset ℕ} {p q : ℕ → β} (hagree : ∀ c ∉ t, p c = q c) :
    ∃ f g, encodeLayer want p l = some f ∧ encodeLayer want' q l = some g ∧
      ∀ c ∉ spread t l, f c = g c := by
  obtain ⟨f, hf, hframe, hcode⟩ := encodeLayer_of_computes hl want p
  obtain ⟨g, hg, hframe', hcode'⟩ := encodeLayer_of_computes hl want' q
  refine ⟨f, g, hf, hg, fun c hc => ?_⟩
  unfold spread at hc
  by_cases hdata : Disjoint l.data.toFinset t
  · rw [if_pos hdata, Finset.mem_sdiff, mem_toFinset, not_and_not_right] at hc
    by_cases hcoding : c ∈ l.coding
    · have hsame : l.data.map p = l.data.map q := map_inj_left.mpr fun d hd =>
        hagree d (Finset.disjoint_left.mp hdata (mem_toFinset.mpr hd))
      rw [hsame, ← hcode'] at hcode
      exact map_inj_left.mp hcode c hcoding
    · rw [hframe c hcoding, hframe' c hcoding, hagree c fun ht => hcoding (hc ht)]
  · rw [if_neg hdata, Finset.mem_union, not_or, mem_toFinset] at hc
    rw [hframe c hc.2, hframe' c hc.2, hagree c hc.1]

theorem encodeLayers_agree (hls : ∀ l ∈ ls, ∃ code, l.Computes code) (want want' : Finset ℕ)
    {t : Finset ℕ} {p q : ℕ → β} (hagree : ∀ c ∉ t, p c = q c) :
    ∃ f g, ls.foldlM (encodeLayer want) p = some f ∧ ls.foldlM (encodeLayer want') q = some g ∧
      ∀ c ∉ ls.foldl spread t, f c = g c := by
  induction ls generalizing t p q with
  | nil => exact ⟨p, q, rfl, rfl, hagree⟩
  | cons l ls ih =>
    rw [forall_mem_cons] at hls
    obtain ⟨⟨code, hl⟩, hls⟩ := hls
    obtain ⟨f, g, hf, hg, hagree⟩ := encodeLayer_agree hl want want' hagree
    obtain ⟨f', g', hf', hg', hagree'⟩ := ih hls hagree
    exact ⟨f', g', by rw [foldlM_cons, hf]; exact hf', by rw [foldlM_cons, hg]; exact hg', hagree'⟩

/-- Layers change only their coding chunks. -/
theorem encodeLayers_frame (hls : ∀ l ∈ ls, ∃ code, l.Computes code) (want : Finset ℕ) (p : ℕ → β) :
    ∃ f, ls.foldlM (encodeLayer want) p = some f ∧ ∀ c, (∀ l ∈ ls, c ∉ l.coding) → f c = p c := by
  induction ls generalizing p with
  | nil => exact ⟨p, rfl, fun _ _ => rfl⟩
  | cons l ls ih =>
    rw [forall_mem_cons] at hls
    obtain ⟨⟨code, hl⟩, hls⟩ := hls
    obtain ⟨f, hf, hframe, -⟩ := encodeLayer_of_computes hl want p
    obtain ⟨g, hg, hframe'⟩ := ih hls f
    refine ⟨g, by rw [foldlM_cons, hf]; exact hg, fun c hc => ?_⟩
    rw [forall_mem_cons] at hc
    rw [hframe' c hc.2, hframe c hc.1]

/-! ### The first layer -/

theorem encodeTop_anti {all : Finset ℕ} (hin : want ⊆ all) (ls : List (Layer β)) :
    encodeTop all ls ≤ encodeTop want ls ∧ encodeTop want ls ≤ ls.length := by
  induction ls with
  | nil => exact ⟨le_rfl, le_rfl⟩
  | cons l ls ih =>
    unfold encodeTop
    rw [length_cons]
    by_cases hwant : want ⊆ l.chunksAsSet
    · rw [if_pos hwant]
      split_ifs <;> omega
    · rw [if_neg hwant, if_neg fun hall => hwant (hin.trans hall)]
      omega

/-- **The encoding of all chunks** goes through some more layers first. -/
theorem drop_encodeTop {all : Finset ℕ} (hin : want ⊆ all) (layers : List (Layer β)) :
    layers.drop (encodeTop all layers.reverse) =
      (layers.take (encodeTop want layers.reverse)).drop (encodeTop all layers.reverse) ++
        layers.drop (encodeTop want layers.reverse) := by
  obtain ⟨hle, hlength⟩ := encodeTop_anti hin layers.reverse
  rw [length_reverse] at hlength
  rw [← drop_append_of_le_length (by rw [length_take]; omega), take_append_drop]

/-! ### Other codes -/

theorem encodeTop_recode (code : Layer β → LayerCode β) (ls : List (Layer β)) :
    encodeTop want (ls.map (recode code)) = encodeTop want ls := by
  induction ls with
  | nil => rfl
  | cons l ls ih =>
    rw [map_cons, encodeTop, encodeTop, ih, length_map]
    rfl

/-- The codes make no difference for the layers that are encoded. -/
theorem drop_recode (code : Layer β → LayerCode β) (layers : List (Layer β)) :
    (layers.map (recode code)).drop (encodeTop want (layers.map (recode code)).reverse) =
      (layers.drop (encodeTop want layers.reverse)).map (recode code) := by
  rw [← map_reverse, encodeTop_recode, map_drop]

theorem tainted_recode (code : Layer β → LayerCode β) (layers : List (Layer β)) :
    tainted want (layers.map (recode code)) = tainted want layers := by
  rw [tainted, drop_recode, foldl_map, flatMap_map]
  rfl

/-! ### New memory is seen -/

section Paint

variable (y z : β) (t : Finset ℕ)

/-- The buffers of some chunks are different. -/
def paint (c : ℕ) : β := if c ∈ t then z else y

open Classical in
/-- A code that finds data other than `y`. -/
noncomputable def dye (l : Layer β) : LayerCode β where
  codingChunkCount := l.coding.length
  encodeChunks _ b := some (b.take l.data.length ++
    replicate l.coding.length (if ∀ v ∈ b.take l.data.length, v = y then y else z))
  decodeChunks _ _ d := some d

open Classical in
theorem computes_dye (l : Layer β) : (l.recode (dye y z)).Computes fun b =>
    replicate l.coding.length (if ∀ v ∈ b, v = y then y else z) :=
  fun _ _ _ => ⟨rfl, length_replicate⟩

variable {y z}

theorem encodeLayer_dye (hyz : y ≠ z) (l : Layer β) (want : Finset ℕ) :
    encodeLayer want (paint y z t) (l.recode (dye y z)) = some (paint y z (spread t l)) := by
  classical
  obtain ⟨g, hg, hframe, hcode⟩ := encodeLayer_of_computes (computes_dye y z l) want (paint y z t)
  have hall : (∀ v ∈ l.data.map (paint y z t), v = y) ↔ Disjoint l.data.toFinset t := by
    simp [paint, Finset.disjoint_left, hyz.symm]
  have hcoding : ∀ c ∈ l.coding, g c = if Disjoint l.data.toFinset t then y else z := by
    rw [← map_eq_replicate_iff, ← if_congr hall rfl rfl]
    exact hcode
  rw [hg, Option.some_inj]
  funext c
  by_cases hc : c ∈ l.coding
  · rw [hcoding c hc]
    by_cases hdata : Disjoint l.data.toFinset t <;> simp [paint, spread, hdata, hc]
  · rw [hframe c hc]
    by_cases hdata : Disjoint l.data.toFinset t <;> simp [paint, spread, hdata, hc]

theorem encodeLayers_dye (hyz : y ≠ z) (ls : List (Layer β)) (want : Finset ℕ) :
    (ls.map (recode (dye y z))).foldlM (encodeLayer want) (paint y z t) =
      some (paint y z (ls.foldl spread t)) := by
  induction ls generalizing t with
  | nil => rfl
  | cons l ls ih =>
    rw [map_cons, foldlM_cons, encodeLayer_dye t hyz]
    exact ih _

end Paint

theorem foldl_spread_empty (ls : List (Layer β)) : ls.foldl spread ∅ = ∅ := by
  induction ls with
  | nil => rfl
  | cons l ls ih =>
    rw [foldl_cons, spread, if_pos (Finset.disjoint_empty_right _), Finset.empty_sdiff]
    exact ih

/-- **Locally repairable codes: some of the chunks are encoded as all are**, exactly if none of them
depends on new memory. -/
theorem encode_subset_iff [Nontrivial β] (hin : want ⊆ Finset.range n) (layers : List (Layer β)) :
    SubsetAgrees n layers want ↔ Disjoint want (tainted want layers) := by
  constructor
  · intro hsub
    rw [Finset.disjoint_left]
    intro x hx htainted
    obtain ⟨y, z, hyz⟩ := exists_pair_ne β
    -- only the memory of the encoding of some chunks is not `y`
    obtain ⟨-, -, hagree⟩ := hsub (dye y z) (fun l _ => ⟨_, computes_dye y z l⟩)
      (paint y z (layers.flatMap coding).toFinset) (paint y z ∅) (by
        intro c hc
        have hnew : c ∉ (layers.flatMap coding).toFinset := by simpa using hc
        rw [paint, paint, if_neg hnew, if_neg (Finset.notMem_empty c)])
    have hsome : encodeChunks (layers.map (recode (dye y z))) want
        (paint y z (layers.flatMap coding).toFinset) = some (paint y z (tainted want layers)) := by
      rw [encodeChunks, drop_recode, encodeLayers_dye _ hyz, tainted]
    have hall : encodeChunks (layers.map (recode (dye y z))) (Finset.range n) (paint y z ∅) =
        some (paint y z ∅) := by
      rw [encodeChunks, drop_recode, encodeLayers_dye _ hyz, foldl_spread_empty]
    have hxz := hagree x hx
    rw [encode_of_encodeChunks hsome hx, encode_of_encodeChunks hall (hin hx)] at hxz
    simp [paint, htainted, hyz.symm] at hxz
  · intro hdisjoint code hcomputes p q hsame
    have hcomputes' : ∀ l ∈ layers.map (recode code), ∃ c, l.Computes c :=
      forall_mem_map.mpr hcomputes
    rw [← tainted_recode code] at hdisjoint
    obtain ⟨q', hq', hframe⟩ := encodeLayers_frame
      (fun l hl => hcomputes' l (mem_of_mem_take (mem_of_mem_drop hl))) (Finset.range n) q
    obtain ⟨f, g, hf, hg, hagree⟩ := encodeLayers_agree
      (fun l hl => hcomputes' l (mem_of_mem_drop hl)) want (Finset.range n)
      (t := ((layers.map (recode code)).flatMap coding).toFinset) (p := p) (q := q') (by
        intro c hc
        have hc' : ∀ l ∈ layers.map (recode code), c ∉ l.coding := by simpa using hc
        rw [hsame c fun l hl => hc' (l.recode code) (mem_map_of_mem hl),
          hframe c fun l hl => hc' l (mem_of_mem_take (mem_of_mem_drop hl))])
    have hfull : encodeChunks (layers.map (recode code)) (Finset.range n) q = some g := by
      rw [encodeChunks, drop_encodeTop hin, foldlM_append, hq']
      exact hg
    refine ⟨by rw [encodeChunks, hf]; rfl, by rw [hfull]; rfl, fun c hc => ?_⟩
    rw [encode_of_encodeChunks hf hc, encode_of_encodeChunks hfull (hin hc),
      hagree c (Finset.disjoint_left.mp hdisjoint hc)]

/-- Two layers, the second one over the coding chunk of the first. -/
def chained : List (Layer UInt8) :=
  [⟨[.data, .coding, .unused], parityCode⟩, ⟨[.unused, .data, .coding], parityCode⟩]

theorem encode_subset_iff_chained : SubsetAgrees 3 chained {0} :=
  (encode_subset_iff (by decide) chained).mpr (by decide)

/-- **The coding chunk of new memory**: chunk 2 alone is computed from the buffer of chunk 1, which
is not encoded. -/
theorem encode_chained_differs :
    encode chained {2} (fun c => if c = 0 then 1 else 0) 2 = some 0 ∧
      encode chained (Finset.range 3) (fun c => if c = 0 then 1 else 0) 2 = some 1 := by
  decide

end Ceph.ErasureCode
