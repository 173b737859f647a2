import Gardos.Memory.HeapMalloc

/-!
# `sys_free` keeps the invariant

A block goes back to the free list of its class (`HeapOk.putBlock`). When all blocks of an arena are
free, they are taken off the list again and the page is released (`HeapOk.releaseArena`). A large
block is released at once. `HeapOk.sysFree` puts these together: the call returns.
-/

namespace Gardos.Memory

open Outcome Function

section Steps

variable {descs : ℕ} {foreign : Finset ℕ} {g : Shape} {x x' : Heap} {held held' : ℕ → Option ℕ}
  {r : ℕ × ℕ} {i k b s p : ℕ}

/-- **A run is taken away** in which nothing is held or free. -/
theorem HeapOk.dropRun (h : HeapOk descs foreign g x held) (hr : r ∈ x.runs)
    (hruns : x'.runs = x.runs.erase r)
    (hframe : ∀ w, w < r.1 ∨ r.1 + 4096 * r.2 ≤ w → x'.mem w = x.mem w)
    (hfree : ∀ i < 7, ∀ b ∈ g.free i, block2arena b ≠ r.1)
    (hheld : ∀ q s, held' q = some s → held q = some s ∧ (q < r.1 ∨ r.1 + 4096 * r.2 ≤ q)) :
    HeapOk descs foreign g x' held' := by
  have hmem : ∀ r' ∈ x'.runs, r' ∈ x.runs ∧ r' ≠ r := fun r' hr' =>
    ⟨Finset.mem_of_mem_erase (hruns ▸ hr'), Finset.ne_of_mem_erase (hruns ▸ hr')⟩
  have hkeep : ∀ r' ∈ x.runs, r' ≠ r → r' ∈ x'.runs := fun r' hr' hne =>
    hruns ▸ Finset.mem_erase.2 ⟨hne, hr'⟩
  have hword : ∀ r' ∈ x'.runs, ∀ w, r'.1 ≤ w → w < r'.1 + 4096 * r'.2 → x'.mem w = x.mem w := by
    intro r' hr' w hw hw'
    have := h.shaped.apart r' (hmem r' hr').1 r hr (hmem r' hr').2
    exact hframe w (by omega)
  have hdesc : ∀ w, descs ≤ w → w < descs + 168 → x'.mem w = x.mem w := fun w hw hw' =>
    hframe w (by have := h.descs_apart r hr; omega)
  have hhead : ∀ r' ∈ x'.runs, HeadOk descs foreign g x'.mem r' := fun r' hr' => by
    have hpos := (h.shaped.run r' (hmem r' hr').1).2.2.1
    exact (h.head (hmem r' hr').1).congr rfl rfl (fun _ _ => rfl) fun w hw hw' =>
      hword r' hr' w hw (by omega)
  have hlists := h.lists hdesc fun i hi b hb => by
    obtain ⟨-, r', hr', hcls, hown, k, hk, hbk⟩ := h.free i hi b hb
    have hreg : RegionIn g.cls r' b (blockSize i) := Or.inr ⟨i, hi, k, hk, hcls, hbk, rfl⟩
    have harena := block2arena_block (h.shaped.run r' hr').1 hi hk
    have hin := h.shaped.regionIn_bounds hr' hreg
    have hsize := (blockSize_bounds hi).1
    have hr'' := hkeep r' hr' fun heq => hfree i hi b hb (by rw [hbk, harena, heq])
    exact ⟨hword r' hr'' _ (by omega) (by omega), hword r' hr'' _ (by omega) (by omega)⟩
  refine ⟨h.descs_pos, ⟨fun r' hr' => h.shaped.run r' (hmem r' hr').1,
      fun r' hr' r'' hr'' => h.shaped.apart r' (hmem r' hr').1 r'' (hmem r'' hr'').1,
      fun r' hr' => h.shaped.one r' (hmem r' hr').1⟩,
    fun r' hr' => h.descs_apart r' (hmem r' hr').1, fun q s hq => ?_,
    fun r' hr' => (hhead r' hr').large, fun r' hr' => (hhead r' hr').small,
    fun r' hr' => (hhead r' hr').owner, fun r' hr' => (hhead r' hr').count,
    fun i hi => (hlists i hi).1, fun i hi => (hlists i hi).2, fun i hi b hb => ?_⟩
  · obtain ⟨hold, hout⟩ := hheld q s hq
    obtain ⟨r', hr', n, hreg, hs⟩ := h.region q s hold
    refine ⟨r', hkeep r' hr' fun heq => ?_, n, hreg, hs⟩
    have hin := h.shaped.regionIn_bounds hr' hreg
    have hpos := h.shaped.regionIn_pos hr' hreg
    rw [heq] at hin
    omega
  · obtain ⟨hnone, r', hr', hcls, hown, k, hk, hbk⟩ := h.free i hi b hb
    refine ⟨?_, r', hkeep r' hr' fun heq => ?_, hcls, hown, k, hk, hbk⟩
    · by_contra hsome
      obtain ⟨s, hs⟩ := Option.ne_none_iff_exists'.1 hsome
      rw [(hheld b s hs).1] at hnone
      cases hnone
    · exact hfree i hi b hb (by rw [hbk, block2arena_block (h.shaped.run r' hr').1 hi hk, heq])

/-- **A large block is released.** -/
theorem HeapOk.releaseLarge (h : HeapOk descs foreign g x held) (hr : r ∈ x.runs)
    (hcls : g.cls r.1 = none) :
    HeapOk descs foreign g { x with runs := x.runs.erase r }
      (update held (r.1 + 12) none) := by
  refine h.dropRun hr rfl (fun _ _ => rfl) (fun i hi b hb harena => ?_) fun q s hq => ?_
  · obtain ⟨r', -, hcls', -, harena'⟩ := h.free_arena hi hb
    rw [← harena', harena, hcls] at hcls'
    cases hcls'
  · by_cases hqr : q = r.1 + 12
    · rw [hqr, update_self] at hq
      cases hq
    · rw [update_of_ne hqr] at hq
      refine ⟨hq, ?_⟩
      obtain ⟨r', hr', n, hreg, -⟩ := h.region q s hq
      have hlarge : RegionIn g.cls r (r.1 + 12) (4096 * r.2 - 12) :=
        Or.inl ⟨hcls, rfl, by have := (h.shaped.run r hr).2.2.1; omega⟩
      have hapart := h.shaped.region_apart hr' hr hreg hlarge hqr
      have hhead := h.shaped.header_apart hr' hr hreg
      have hpos := h.shaped.regionIn_pos hr' hreg
      omega

/-- **A block goes back** to the free list. -/
theorem HeapOk.putBlock (h : HeapOk descs foreign g x held) (hi : i < 7) (hr : r ∈ x.runs)
    (hcls : g.cls r.1 = some i) (hown : g.owner r.1 = descs) (hk : k < blocksPerArena i)
    (hbk : b = block r.1 i k) (hb : held b ≠ none) :
    let m := listAppend x.mem (descAddr descs i + 8) b
    let y : Heap := { x with mem := update m (r.1 + 4) ((m (r.1 + 4) + 1) % 4294967296) }
    HeapOk descs foreign { g with free := update g.free i (g.free i ++ [b]) } y
      (update held b none) ∧ KeepsOutside descs x y := by
  intro m y
  set d := descAddr descs i with hd
  have hlist := h.list i hi
  have hreg : RegionIn g.cls r b (blockSize i) := Or.inr ⟨i, hi, k, hk, hcls, hbk, rfl⟩
  have hin := h.shaped.regionIn_bounds hr hreg
  obtain ⟨hmin, -, -, -⟩ := blockSize_bounds hi
  obtain ⟨hpage, -, hcnt, hlim⟩ := h.shaped.run r hr
  have harena : block2arena b = r.1 := by
    rw [hbk]
    exact block2arena_block hpage hi hk
  have hdr := h.descs_apart r hr
  have hdb := descAddr_bounds descs hi
  rw [← hd] at hdb
  have hnotFree : ∀ y ∈ g.free i, y ≠ b := fun y hy heq => hb (heq ▸ (h.free i hi y hy).1)
  have happend : IsList m (d + 8) (g.free i ++ [b]) := by
    refine hlist.listAppend (by omega) fun y hy => ?_
    rcases node_cases hy with hy | hy
    · omega
    · obtain ⟨r', hr', hreg'⟩ := h.free_region hi hy
      have := h.shaped.region_apart hr' hr hreg' hreg (hnotFree y hy)
      omega
  have hhead : ∀ r' ∈ x.runs, ∀ w, r'.1 ≤ w → w < r'.1 + 12 → m w = x.mem w := by
    intro r' hr' w hw hw'
    have hbr := h.shaped.header_apart hr hr' hreg
    exact hlist.listAppend_of_ne (by omega) (by omega) fun y hy => h.node_header hi hy hr' hw hw'
  have hcount := h.count r hr i hcls hown
  have hbound := h.count_le hi r
  have hnew : (m (r.1 + 4) + 1) % 4294967296 = x.mem (r.1 + 4) + 1 := by
    rw [hhead r hr _ (by omega) (by omega), Nat.mod_eq_of_lt (by omega)]
  have hkeep : KeepsOthers descs i r.1 g.cls x y := by
    intro w hw hwr hout
    change update m (r.1 + 4) _ w = x.mem w
    have hwb := hout r hr k hk hcls
    rw [← hbk] at hwb
    rw [update_of_ne hwr]
    exact hlist.listAppend_of_ne (by omega) (by omega) fun y hy => h.node_outside hi hy hw hout
  refine ⟨?_, hkeep.keepsOutside h.shaped hi hr⟩
  refine h.relist hi rfl hr hkeep ?_ (fun q s hq => ?_) (fun q hq => ?_) hcls
    (fun r' hr' hcls' hown' => ?_) fun y hy => ?_
  · refine happend.congr fun y hy => ?_
    have hout : y ≠ r.1 + 4 ∧ y + 4 ≠ r.1 + 4 := by
      rcases mem_listNodes.1 hy with hy | hy | hy
      · omega
      · rcases List.mem_append.1 hy with hy | hy
        · obtain ⟨r', hr', hreg'⟩ := h.free_region hi hy
          have := h.shaped.header_apart hr' hr hreg'
          omega
        · rw [List.mem_singleton.1 hy]
          omega
      · omega
    exact ⟨update_of_ne hout.1 .., update_of_ne hout.2 ..⟩
  · by_cases hqb : q = b
    · rw [hqb, update_self] at hq
      cases hq
    · rw [update_of_ne hqb] at hq
      exact h.region q s hq
  · have hqb : q = b := by
      by_contra hne
      exact hq (update_of_ne hne ..)
    rw [hqb, harena]
    exact hcls
  · change update m (r.1 + 4) _ (r'.1 + 4) = _
    rw [List.countP_append, List.countP_singleton, harena, hnew]
    by_cases hrr : r'.1 = r.1
    · rw [hrr, update_self, if_pos (decide_eq_true rfl), hcount]
    · rw [update_of_ne (by omega), hhead r' hr' _ (by omega) (by omega),
        if_neg fun heq => hrr (of_decide_eq_true heq).symm, Nat.add_zero]
      exact h.count r' hr' i hcls' hown'
  · rcases List.mem_append.1 hy with hy | hy
    · rw [update_of_ne (hnotFree y hy)]
      exact h.free i hi y hy
    · rw [List.mem_singleton.1 hy, update_self]
      exact ⟨rfl, r, hr, hcls, hown, k, hk, hbk⟩

/-- The loop takes the blocks off the free list, and changes nothing but the links of the list. -/
theorem mergeArena_spec {a d : ℕ} (hi : i < 7) {n : ℕ} : ∀ {k : ℕ} {m : Words} {xs : List ℕ},
    m a = d → m d = blockSize i → IsList m (d + 8) xs →
    (∀ y ∈ listNodes (d + 8) xs, a ≠ y ∧ a ≠ y + 4 ∧ d ≠ y ∧ d ≠ y + 4) →
    (∀ j, k ≤ j → j < k + n → block a i j ∈ xs) →
    ∃ m' ys, mergeArena a n k m = .ok m' ∧ IsList m' (d + 8) ys ∧
      (∀ y, y ∈ ys ↔ y ∈ xs ∧ ∀ j, k ≤ j → j < k + n → y ≠ block a i j) ∧
      ∀ w, (∀ y ∈ listNodes (d + 8) xs, w ≠ y ∧ w ≠ y + 4) → m' w = m w := by
  induction n with
  | zero =>
    intro k m xs _ _ hlist _ _
    exact ⟨m, xs, rfl, hlist, fun y => ⟨fun hy => ⟨hy, fun j _ _ => by omega⟩, And.left⟩,
      fun _ _ => rfl⟩
  | succ n ih =>
    intro k m xs hdesc hsize hlist hout hmem
    have hblock : arena2block m a k = block a i k := by
      unfold arena2block block
      rw [hdesc, hsize]
    have hk : block a i k ∈ xs := hmem k le_rfl (by omega)
    obtain ⟨l₁, l₂, hxs⟩ := List.append_of_mem hk
    have hlist' := hlist
    rw [hxs] at hlist'
    have hsub : ∀ y, y ∈ listNodes (d + 8) (l₁ ++ l₂) → y ∈ listNodes (d + 8) xs := fun y hy => by
      rw [hxs, mem_listNodes]
      rcases mem_listNodes.1 hy with hy | hy | hy
      · exact Or.inl hy
      · refine Or.inr (Or.inl ?_)
        rcases List.mem_append.1 hy with hy | hy <;> simp [hy]
      · exact Or.inr (Or.inr hy)
    have hframe : ∀ w, (∀ y ∈ listNodes (d + 8) xs, w ≠ y ∧ w ≠ y + 4) →
        listRemove m (block a i k) w = m w := fun w hw =>
      hlist'.listRemove_of_ne l₁ fun y hy => hw y (hsub y hy)
    -- what is left is everything but this block
    have hleft : ∀ y, y ∈ l₁ ++ l₂ ↔ y ∈ xs ∧ y ≠ block a i k := fun y => by
      have hnodup := hlist'.nodup
      rw [List.nodup_middle, List.nodup_cons] at hnodup
      rw [hxs]
      constructor
      · intro hy
        refine ⟨?_, fun heq => hnodup.1 (heq ▸ hy)⟩
        rcases List.mem_append.1 hy with hy | hy <;> simp [hy]
      · rintro ⟨hy, hne⟩
        simp only [List.mem_append, List.mem_cons] at hy ⊢
        tauto
    obtain ⟨m', ys, hrun, hys, hiff, hframe'⟩ := ih (k := k + 1)
      ((hframe a fun y hy => ⟨(hout y hy).1, (hout y hy).2.1⟩).trans hdesc)
      ((hframe d fun y hy => (hout y hy).2.2).trans hsize) (hlist'.listRemove l₁)
      (fun y hy => hout y (hsub y hy)) fun j hj hj' =>
        (hleft _).2 ⟨hmem j (by omega) (by omega), fun heq => by
          have := block_injective hi heq
          omega⟩
    refine ⟨m', ys, ?_, hys, fun y => ?_, fun w hw => ?_⟩
    · rw [mergeArena, hdesc, hblock, hlist.elemFind, ok_bind, assert,
        if_pos (decide_eq_true hk), ok_bind]
      exact hrun
    · rw [hiff, hleft]
      constructor
      · rintro ⟨⟨hy, hne⟩, hrest⟩
        refine ⟨hy, fun j hj hj' => ?_⟩
        rcases Nat.eq_or_lt_of_le hj with rfl | hlt
        · exact hne
        · exact hrest j hlt (by omega)
      · rintro ⟨hy, hall⟩
        exact ⟨⟨hy, hall k le_rfl (by omega)⟩, fun j hj hj' => hall j (by omega) (by omega)⟩
    · rw [hframe' w fun y hy => hw y (hsub y hy), hframe w hw]

/-- All blocks of an arena are free if its count says so. -/
theorem HeapOk.free_of_count (h : HeapOk descs foreign g x held) (hi : i < 7)
    (hcount : ((g.free i).countP fun b => block2arena b = r.1) = blocksPerArena i)
    (hk : k < blocksPerArena i) : block r.1 i k ∈ g.free i := by
  have hperm := (h.free_subperm hi r).perm_of_length_le (by
    rw [← List.countP_eq_length_filter, hcount]
    simp [blocks])
  exact (List.mem_filter.1 (hperm.mem_iff.2 (mem_blocks.2 ⟨k, hk, rfl⟩))).1

/-- **An arena without held blocks is released.** -/
theorem HeapOk.releaseArena (h : HeapOk descs foreign g x held) (hi : i < 7) (hr : r ∈ x.runs)
    (hcls : g.cls r.1 = some i) (hown : g.owner r.1 = descs)
    (hcount : x.mem (r.1 + 4) = blocksPerArena i) :
    ∃ m ys, mergeArena r.1 (blocksPerArena i) 0 x.mem = .ok m ∧
      HeapOk descs foreign { g with free := update g.free i ys }
        ⟨m, x.runs.erase r⟩ held ∧ KeepsOutside descs x ⟨m, x.runs⟩ := by
  set d := descAddr descs i with hd
  obtain ⟨hpage, -, -, -⟩ := h.shaped.run r hr
  have hone := h.shaped.one r hr (by rw [hcls]; exact Option.some_ne_none i)
  have hdr := h.descs_apart r hr
  have hdb := descAddr_bounds descs hi
  rw [← hd] at hdb
  have hall : ∀ k < blocksPerArena i, block r.1 i k ∈ g.free i := fun k hk =>
    h.free_of_count hi ((h.count r hr i hcls hown).symm.trans hcount) hk
  obtain ⟨m, ys, hrun, hlist, hiff, hframe⟩ := mergeArena_spec (a := r.1) (d := d) hi
    (n := blocksPerArena i) (k := 0) (by rw [(h.small r hr i hcls).2.1, hown])
    (h.desc i hi).1 (h.list i hi) (fun y hy =>
      have hhead := h.node_header hi hy hr le_rfl (by omega)
      ⟨hhead.1, hhead.2, h.node_desc hi hy⟩) fun j _ hj => hall j (by omega)
  have hys : ∀ y, y ∈ ys ↔ y ∈ g.free i ∧ block2arena y ≠ r.1 := fun y => by
    rw [hiff]
    refine and_congr_right fun hy => ⟨fun hne harena => ?_, fun hne j _ hj heq => hne ?_⟩
    · obtain ⟨-, r', hr', -, -, k, hk, rfl⟩ := h.free i hi y hy
      rw [block2arena_block (h.shaped.run r' hr').1 hi hk] at harena
      exact hne k (Nat.zero_le k) (by omega) (by rw [harena])
    · rw [heq]
      exact block2arena_block hpage hi (by omega)
  have hkeep : KeepsOthers descs i r.1 g.cls x ⟨m, x.runs⟩ := fun w hw _ hout =>
    hframe w fun y hy => h.node_outside hi hy hw hout
  refine ⟨m, ys, hrun, ?_, hkeep.keepsOutside h.shaped hi hr⟩
  -- with the count set to 0 the invariant holds before the page goes
  have hbare : HeapOk descs foreign { g with free := update g.free i ys }
      { x with mem := update m (r.1 + 4) 0 } held := by
    refine h.relist hi rfl hr (fun w hw hwr hout => ?_) ?_ h.region (fun q hq => absurd rfl hq) hcls
      (fun r' hr' hcls' hown' => ?_) fun y hy => h.free i hi y ((hys y).1 hy).1
    · exact (update_of_ne hwr ..).trans (hkeep w hw hwr hout)
    · refine hlist.congr fun y hy => ?_
      have hout : y ≠ r.1 + 4 ∧ y + 4 ≠ r.1 + 4 := by
        rcases mem_listNodes.1 hy with hy | hy | hy
        · omega
        · obtain ⟨r', hr', hreg'⟩ := h.free_region hi ((hys y).1 hy).1
          have hhead := h.shaped.header_apart hr' hr hreg'
          have hsize := (blockSize_bounds hi).1
          omega
        · omega
      exact ⟨update_of_ne hout.1 .., update_of_ne hout.2 ..⟩
    · change update m (r.1 + 4) 0 (r'.1 + 4) = _
      by_cases hrr : r'.1 = r.1
      · rw [hrr, update_self, eq_comm, List.countP_eq_zero]
        exact fun y hy harena => ((hys y).1 hy).2 (of_decide_eq_true harena)
      · rw [update_of_ne (by omega), hframe _ fun y hy => h.node_header hi hy hr'
          (by omega) (by omega), h.count r' hr' i hcls' hown']
        rw [List.countP_eq_length_filter, List.countP_eq_length_filter]
        refine ((List.perm_ext_iff_of_nodup ((h.list i hi).nodup.filter _)
          (hlist.nodup.filter _)).2 fun y => ?_).length_eq
        rw [List.mem_filter, List.mem_filter, hys]
        refine ⟨fun hy => ⟨⟨hy.1, fun harena => hrr ?_⟩, hy.2⟩, fun hy => ⟨hy.1.1, hy.2⟩⟩
        exact (of_decide_eq_true hy.2).symm.trans harena
  refine hbare.dropRun hr rfl (fun w hw => ?_) (fun j hj y hy harena => ?_) fun q s hq => ⟨hq, ?_⟩
  · change m w = update m (r.1 + 4) 0 w
    rw [update_of_ne (by omega)]
  · obtain ⟨r', -, hcls', -, harena'⟩ := hbare.free_arena hj hy
    change g.cls r'.1 = some j at hcls'
    rw [← harena', harena, hcls] at hcls'
    obtain rfl : i = j := Option.some.inj hcls'
    change y ∈ update g.free i ys i at hy
    rw [update_self] at hy
    exact ((hys y).1 hy).2 harena
  · -- a held block of the arena would be free
    obtain ⟨r', hr', n, hreg, -⟩ := h.region q s hq
    by_contra hin
    have hin' := h.shaped.regionIn_bounds hr' hreg
    have hpos := h.shaped.regionIn_pos hr' hreg
    obtain rfl : r' = r := h.shaped.run_eq hr' hr (w := q) (by omega) (by omega) (by omega)
      (by omega)
    obtain ⟨hnone, -, -⟩ | ⟨j, -, k, hk, hcls', rfl, -⟩ := hreg
    · rw [hcls] at hnone
      cases hnone
    · obtain rfl : i = j := Option.some.inj (hcls.symm.trans hcls')
      rw [(h.free i hi _ (hall k hk)).1] at hq
      cases hq

/-- **`sys_free` returns**, for a held block of an arena of the thread's own, or a large one. -/
theorem HeapOk.sysFree {t : Task} (h : HeapOk t.descs foreign g x held) (hp : held p ≠ none)
    (hkernel : t.kernel = true → 0xc0100000 ≤ p)
    (hown : g.cls (block2arena p) ≠ none → g.owner (block2arena p) = t.descs) :
    ∃ y g', sysFree t x p = .ok y ∧
      HeapOk t.descs foreign g' y (update held p none) ∧
      (∀ r ∈ y.runs, r ∈ x.runs) ∧ KeepsOutside t.descs x y := by
  obtain ⟨s, hs⟩ := Option.ne_none_iff_exists'.1 hp
  obtain ⟨r, hr, n, hreg, -⟩ := h.region p s hs
  have hin := h.shaped.regionIn_bounds hr hreg
  obtain ⟨hpage, hrpos, hcnt, -⟩ := h.shaped.run r hr
  have hp0 : p ≠ 0 := by omega
  unfold Memory.sysFree
  rw [assert, if_pos hp0, ok_bind, assert, if_pos hkernel, ok_bind]
  dsimp only
  obtain ⟨hnone, hpr, -⟩ | ⟨i, hi, k, hk, hcls, hpk, -⟩ := hreg
  · have harena : block2arena p = r.1 := block2arena_of_mem hpage (by omega) (by omega)
    obtain ⟨hd, hc, hl⟩ := h.large r hr hnone
    refine ⟨{ x with runs := x.runs.erase r }, g, ?_, hpr ▸ h.releaseLarge hr hnone,
      fun r' hr' => Finset.mem_of_mem_erase hr', fun _ _ _ _ => rfl⟩
    rw [harena, hl, assert, if_pos (Or.inr rfl), ok_bind, if_pos ⟨hd, rfl⟩, hc, mfreePage, access,
      if_pos hr, ok_bind]
    rfl
  · have harena : block2arena p = r.1 := by
      rw [hpk]
      exact block2arena_block hpage hi hk
    have hown := hown (by rw [harena, hcls]; exact Option.some_ne_none i)
    rw [harena] at hown ⊢
    obtain ⟨-, hd, hl⟩ := h.small r hr i hcls
    rw [hown] at hd
    rw [hl, assert, if_pos (Or.inl rfl), ok_bind, if_neg fun hz => by cases hz.2]
    obtain ⟨hput, hkeep⟩ := h.putBlock hi hr hcls hown hk hpk hp
    set m := listAppend x.mem (descAddr t.descs i + 8) p with hm
    set m' := update m (r.1 + 4) ((m (r.1 + 4) + 1) % 4294967296) with hm'
    have hdesc' : m' r.1 = descAddr t.descs i := by
      have := (hput.small r hr i hcls).2.1
      rwa [show Shape.owner _ r.1 = t.descs from hown] at this
    have hper' : m' (descAddr t.descs i + 4) = blocksPerArena i := (hput.desc i hi).2
    unfold freeBlock
    rw [hd]
    dsimp only
    rw [← hm, ← hm', hdesc', hper']
    by_cases hlast : m' (r.1 + 4) = blocksPerArena i
    · obtain ⟨m'', ys, hmerge, hok, hkeep'⟩ := hput.releaseArena hi hr hcls hown hlast
      refine ⟨_, _, ?_, hok, fun r' hr' => Finset.mem_of_mem_erase hr',
        fun w hw hout _ => (hkeep' w hw hout hout).trans (hkeep w hw hout hout)⟩
      have hone := h.shaped.one r hr (by rw [hcls]; exact Option.some_ne_none i)
      have hr1 : (r.1, 1) = r := Prod.ext rfl hone.symm
      change mergeArena r.1 (blocksPerArena i) 0 m' = .ok m'' at hmerge
      rw [if_pos hlast, hmerge, ok_bind, mfreePage, hr1, access, if_pos hr, ok_bind]
      rfl
    · exact ⟨_, _, if_neg hlast, hput, fun r' hr' => hr', hkeep⟩

end Steps

end Gardos.Memory
