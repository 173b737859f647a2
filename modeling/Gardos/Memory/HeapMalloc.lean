import Gardos.Memory.HeapShape

/-!
# `sys_malloc` keeps the invariant

A small request takes the first block of a free list (`HeapOk.takeBlock`); before that an empty list
gets the blocks of a new arena (`HeapOk.newArena`). A large request gets its own pages
(`HeapOk.newLarge`). `HeapOk.sysMalloc` puts these together: the call returns, and its result is
a block of zeros that was not in use.
-/

namespace Gardos.Memory

open Outcome Function

/-! ## Memory -/

section Words

variable {m : Words} {dst size w a d c l : ℕ}

theorem memset_of_mem (h1 : dst ≤ w) (h2 : w < dst + size) : memset m dst size w = 0 :=
  if_pos ⟨h1, h2⟩

theorem memset_of_notMem (h : w < dst ∨ dst + size ≤ w) : memset m dst size w = m w :=
  if_neg (by omega)

theorem setArena_of_notMem (h : w < a ∨ a + 12 ≤ w) : setArena m a d c l w = m w := by
  unfold setArena
  rw [update_of_ne (by omega), update_of_ne (by omega),
    update_of_ne (by omega)]

theorem setArena_desc : setArena m a d c l a = d := by
  unfold setArena
  rw [update_of_ne (by omega), update_of_ne (by omega), update_self]

theorem setArena_cnt : setArena m a d c l (a + 4) = c := by
  unfold setArena
  rw [update_of_ne (by omega), update_self]

theorem setArena_large : setArena m a d c l (a + 8) = l := update_self ..

end Words

/-! ## A new arena -/

/-- The loop appends the blocks to the free list, and changes nothing but the list and the
blocks. -/
theorem splitArena_spec {a i d : ℕ} (hi : i < 7) (ha : a + 4096 ≤ 4294967296)
    (hout : d + 24 ≤ a ∨ a + 4096 ≤ d) {n : ℕ} : ∀ {k : ℕ} {m : Words}, m a = d →
    m d = blockSize i → k + n ≤ blocksPerArena i → IsList m (d + 8) (blocks a i k) →
    ∃ m', splitArena a n k m = .ok m' ∧ IsList m' (d + 8) (blocks a i (k + n)) ∧
      ∀ w, (w < d + 8 ∨ d + 24 ≤ w) → (∀ k < blocksPerArena i,
        w < block a i k ∨ block a i k + blockSize i ≤ w) → m' w = m w := by
  -- the header and the descriptor are outside the blocks
  have hword : ∀ w, w = a ∨ w = d → ∀ k < blocksPerArena i,
      w < block a i k ∨ block a i k + blockSize i ≤ w := fun w hw k hk => by
    have hle := block_le (a := a) hk
    have hge := le_block (a := a) (i := i) (k := k)
    omega
  induction n with
  | zero =>
    intro k m _ _ _ hlist
    exact ⟨m, rfl, hlist, fun _ _ _ => rfl⟩
  | succ n ih =>
    intro k m hdesc hsize hk hlist
    obtain ⟨hmin, -, -, -⟩ := blockSize_bounds hi
    have hle := block_le (a := a) (show k < blocksPerArena i by omega)
    have hge := le_block (a := a) (i := i) (k := k)
    have hblock : arena2block m a k = block a i k := by
      unfold arena2block block
      rw [hdesc, hsize]
    have hnode : ∀ y ∈ listNodes (d + 8) (blocks a i k), (y = d + 8 ∨ y = d + 16) ∨
        ∃ j < k, y = block a i j := fun y hy => by
      rcases mem_listNodes.1 hy with hy | hy | hy
      · exact Or.inl (Or.inl hy)
      · exact Or.inr (mem_blocks.1 hy)
      · exact Or.inl (Or.inr hy)
    have hnotMem : block a i k ∉ blocks a i k := fun hmem => by
      obtain ⟨j, hj, heq⟩ := mem_blocks.1 hmem
      exact absurd (block_injective hi heq) (by omega)
    have hframe : ∀ w, (w < d + 8 ∨ d + 24 ≤ w) → (∀ k < blocksPerArena i,
        w < block a i k ∨ block a i k + blockSize i ≤ w) →
        listAppend m (d + 8) (block a i k) w = m w := fun w hw hout => by
      have hwk := hout k (by omega)
      refine hlist.listAppend_of_ne (by omega) (by omega) fun y hy => ?_
      rcases hnode y hy with hy | ⟨j, hj, rfl⟩
      · omega
      · have := hout j (by omega)
        omega
    have hlist' := hlist.listAppend (e := block a i k) (by omega) fun y hy => by
      rcases hnode y hy with hy | ⟨j, hj, rfl⟩
      · omega
      · have := block_apart (a := a) (i := i) hj
        omega
    rw [← blocks_succ] at hlist'
    obtain ⟨m', hrun, hlist'', hframe'⟩ :=
      ih ((hframe a (by omega) (hword a (.inl rfl))).trans hdesc)
      ((hframe d (by omega) (hword d (.inr rfl))).trans hsize) (by omega) hlist'
    refine ⟨m', ?_, ?_, fun w hw hw' => (hframe' w hw hw').trans (hframe w hw hw')⟩
    · rw [splitArena, hdesc, hblock, hlist.elemFind, ok_bind, assert,
        if_pos (decide_eq_false hnotMem), ok_bind]
      exact hrun
    · rw [show k + (n + 1) = k + 1 + n by omega]
      exact hlist''

/-! ## Taking a block -/

section Steps

variable {descs : ℕ} {foreign : Finset ℕ} {g : Shape} {x : Heap} {held : ℕ → Option ℕ} {i b s : ℕ}
  {rest : List ℕ}

/-- **A block is taken**: it is filled with zeros, and no longer free. -/
theorem HeapOk.takeBlock (h : HeapOk descs foreign g x held) (hi : i < 7)
    (hfree : g.free i = b :: rest) (hs : s ≤ blockSize i) :
    ∃ y, takeBlock x (descAddr descs i) = (b, y) ∧
      HeapOk descs foreign { g with free := update g.free i rest } y
        (update held b (some s)) ∧
      0 < b ∧ (∀ w, b ≤ w → w < b + blockSize i → y.mem w = 0) ∧
      y.runs = x.runs ∧ KeepsOutside descs x y := by
  set d := descAddr descs i with hd
  have hlist := h.list i hi
  rw [hfree] at hlist
  have hbmem : b ∈ g.free i := by rw [hfree]; exact List.mem_cons_self
  obtain ⟨hheld, r, hr, hcls, hown, k, hk, hbk⟩ := h.free i hi b hbmem
  have hreg : RegionIn g.cls r b (blockSize i) := Or.inr ⟨i, hi, k, hk, hcls, hbk, rfl⟩
  have hin := h.shaped.regionIn_bounds hr hreg
  obtain ⟨hmin, -, -, -⟩ := blockSize_bounds hi
  have harena : block2arena b = r.1 := by
    rw [hbk]
    exact block2arena_block (h.shaped.run r hr).1 hi hk
  have hdr := h.descs_apart r hr
  have hdb := descAddr_bounds descs hi
  rw [← hd] at hdb
  have hrest : ∀ y ∈ rest, y ∈ g.free i := fun y hy => by
    rw [hfree]; exact List.mem_cons_of_mem _ hy
  have hbrest : b ∉ rest := (List.nodup_cons.1 hlist.nodup).1
  -- the nodes that stay in the list
  have hnode : ∀ y ∈ listNodes (d + 8) rest, y ∈ listNodes (d + 8) (g.free i) := fun y hy =>
    mem_listNodes.2 ((mem_listNodes.1 hy).imp_right (Or.imp_left (hrest y)))
  have hremove : ∀ w, (∀ y ∈ listNodes (d + 8) rest, w ≠ y ∧ w ≠ y + 4) →
      listRemove x.mem b w = x.mem w := fun w hw => IsList.listRemove_of_ne [] hlist hw
  -- no header and no `block_size` is a word of a node
  have hhead : ∀ r' ∈ x.runs, ∀ w, r'.1 ≤ w → w < r'.1 + 12 → listRemove x.mem b w = x.mem w := by
    intro r' hr' w hw hw'
    exact hremove w fun y hy => h.node_header hi (hnode y hy) hr' hw hw'
  have hsize : listRemove x.mem b d = blockSize i := by
    rw [hremove d fun y hy => h.node_desc hi (hnode y hy)]
    exact (h.desc i hi).1
  set m := memset (listRemove x.mem b) b (blockSize i) with hm
  have hcnt : m (r.1 + 4) = (g.free i).countP fun b => block2arena b = r.1 := by
    rw [hm, memset_of_notMem (by omega), hhead r hr _ (by omega) (by omega)]
    exact h.count r hr i hcls hown
  have hcount : (g.free i).countP (fun b => block2arena b = r.1) =
      (rest.countP fun b => block2arena b = r.1) + 1 := by
    rw [hfree, List.countP_cons, if_pos (decide_eq_true harena)]
  have hmod : ((rest.countP fun b => decide (block2arena b = r.1)) + 1 + 4294967295) % 4294967296 =
      rest.countP fun b => decide (block2arena b = r.1) := by
    have hle := h.count_le hi r
    rw [hcount] at hle
    omega
  set y : Heap := { x with
    mem := update m (r.1 + 4) (rest.countP fun b => block2arena b = r.1) } with hy
  have hkeep : KeepsOthers descs i r.1 g.cls x y := by
    intro w hw hwr hout
    change update m (r.1 + 4) _ w = x.mem w
    rw [update_of_ne hwr, hm, memset_of_notMem (by rw [hbk]; exact hout r hr k hk hcls)]
    exact hremove w fun y hy => h.node_outside hi (hnode y hy) hw hout
  refine ⟨y, ?_, ?_, by omega, fun w hw hw' => ?_, rfl, hkeep.keepsOutside h.shaped hi hr⟩
  · unfold Memory.takeBlock
    rw [hlist.listPop]
    dsimp only
    rw [hsize, harena, ← hm, hcnt, hcount, hmod]
  · refine h.relist hi rfl hr hkeep ?_ (fun p s' hp => ?_) (fun p hp => ?_) hcls
      (fun r' hr' hcls' hown' => ?_) fun y hy => ?_
    · refine IsList.congr (IsList.listRemove [] hlist) fun y hy => ?_
      change update m (r.1 + 4) _ y = _ ∧ update m (r.1 + 4) _ (y + 4) = _
      have hout : (y < b ∨ b + blockSize i ≤ y) ∧ (y + 4 < b ∨ b + blockSize i ≤ y + 4) ∧
          y ≠ r.1 + 4 ∧ y + 4 ≠ r.1 + 4 := by
        have hhead' := h.node_header hi (hnode y hy) hr (w := r.1 + 4) (by omega) (by omega)
        rcases mem_listNodes.1 hy with hy | hy | hy
        · omega
        · obtain ⟨r', hr', hreg'⟩ := h.free_region hi (hrest y hy)
          have hapart := h.shaped.region_apart hr hr' hreg hreg' fun heq => hbrest (heq ▸ hy)
          omega
        · omega
      rw [update_of_ne hout.2.2.1, update_of_ne hout.2.2.2, hm,
        memset_of_notMem hout.1, memset_of_notMem hout.2.1]
      exact ⟨rfl, rfl⟩
    · by_cases hpb : p = b
      · rw [hpb, update_self] at hp
        rw [hpb]
        exact ⟨r, hr, _, hreg, Option.some.inj hp ▸ hs⟩
      · rw [update_of_ne hpb] at hp
        exact h.region p s' hp
    · have hpb : p = b := by
        by_contra hne
        exact hp (update_of_ne hne ..)
      rw [hpb, harena]
      exact hcls
    · change update m (r.1 + 4) _ (r'.1 + 4) = _
      by_cases hrr : r'.1 = r.1
      · rw [hrr, update_self]
      · rw [update_of_ne (by omega), hm, memset_of_notMem ?_,
          hhead r' hr' _ (by omega) (by omega), h.count r' hr' i hcls' hown', hfree,
          List.countP_cons_of_neg]
        · rw [harena]
          simpa using Ne.symm hrr
        · have := h.shaped.header_apart hr hr' hreg
          omega
    · refine ⟨?_, (h.free i hi y (hrest y hy)).2⟩
      rw [update_of_ne fun heq : y = b => hbrest (heq ▸ hy)]
      exact (h.free i hi y (hrest y hy)).1
  · change update m (r.1 + 4) _ w = 0
    rw [update_of_ne (by omega), hm, memset_of_mem hw hw']

/-- **A new arena**: all its blocks are free. -/
theorem HeapOk.newArena {grant : Grant} (h : HeapOk descs foreign g x held) (hi : i < 7)
    (hempty : g.free i = []) (hfresh : Fresh descs x.runs grant.addr 1) :
    ∃ y, refill x (descAddr descs i) (some grant) = .ok (some y) ∧
      HeapOk descs foreign ⟨update g.owner grant.addr descs, update g.cls grant.addr (some i),
        update g.free i (blocks grant.addr i (blocksPerArena i))⟩ y held ∧
      y.runs = insert (grant.addr, 1) x.runs ∧ KeepsOutside descs x y := by
  set d := descAddr descs i with hd
  set a := grant.addr with ha
  have hdb := descAddr_bounds descs hi
  rw [← hd] at hdb
  have hfd := hfresh.descs
  have hle := hfresh.le
  set m₁ : Words := fun w => if a ≤ w ∧ w < a + 4096 * 1 then grant.content w else x.mem w with hm₁
  set m₂ := memset m₁ a 4096 with hm₂
  have hm₂out : ∀ w, w < a ∨ a + 4096 ≤ w → m₂ w = x.mem w := fun w hw => by
    rw [hm₂, memset_of_notMem hw, hm₁]
    exact if_neg (by omega)
  have hper : m₂ (d + 4) = blocksPerArena i := (hm₂out _ (by omega)).trans (h.desc i hi).2
  set m₃ := setArena m₂ a d (blocksPerArena i) 0 with hm₃
  have hm₃out : ∀ w, w < a ∨ a + 4096 ≤ w → m₃ w = x.mem w := fun w hw => by
    rw [hm₃, setArena_of_notMem (by omega), hm₂out w hw]
  -- the loop
  have hlist₃ : IsList m₃ (d + 8) (blocks a i 0) := by
    have hlist := h.list i hi
    rw [hempty] at hlist
    refine hlist.congr fun w hw => ?_
    rcases mem_listNodes.1 hw with hw | hw | hw
    · exact ⟨hm₃out _ (by omega), hm₃out _ (by omega)⟩
    · cases hw
    · exact ⟨hm₃out _ (by omega), hm₃out _ (by omega)⟩
  obtain ⟨m₄, hsplit, hlist₄, hframe₄⟩ := splitArena_spec (a := a) (d := d) hi (by omega) (by omega)
    (n := blocksPerArena i) (k := 0) (m := m₃) setArena_desc
    ((hm₃out d (by omega)).trans (h.desc i hi).1) (by omega) hlist₃
  rw [Nat.zero_add] at hlist₄
  refine ⟨{ mem := m₄, runs := insert (a, 1) x.runs }, ?_, ?_, rfl, fun w hw _ hout => ?_⟩
  rotate_left 2
  · have hwa := hout (a, 1) (Finset.mem_insert_self ..)
    refine (hframe₄ w (by omega) fun k hk => ?_).trans (hm₃out w (by omega))
    have hge := le_block (a := a) (i := i) (k := k)
    have hle := block_le (a := a) hk
    omega
  · have hemptyList : listEmpty x.mem (d + 8) = true := (h.list i hi).listEmpty.2 hempty
    unfold refill mallocPage
    rw [if_pos hemptyList]
    dsimp only
    rw [← ha, ← hm₁, ← hm₂, hper, ← hm₃, hm₃out (d + 4) (by omega), (h.desc i hi).2, hsplit,
      ok_bind]
    rfl
  -- the page without its blocks, and then the blocks
  · have hbare : HeapOk descs foreign ⟨update g.owner a descs, update g.cls a (some i),
        g.free⟩ { mem := setArena m₂ a d 0 0, runs := insert (a, 1) x.runs } held :=
      h.addRun hfresh rfl (fun w hw => (setArena_of_notMem (by omega)).trans (hm₂out w (by omega)))
        (fun hnone => by cases hnone) fun j hj => by
          obtain rfl : i = j := Option.some.inj hj
          exact ⟨hi, rfl, setArena_desc, setArena_cnt, setArena_large⟩
    have hcls : update g.cls a (some i) a = some i := update_self ..
    have hown : update g.owner a descs a = descs := update_self ..
    have hcnt : m₄ (a + 4) = blocksPerArena i := by
      rw [hframe₄ (a + 4) (by omega) fun k hk => by
        have := le_block (a := a) (i := i) (k := k)
        omega]
      exact setArena_cnt
    refine hbare.relist (r := (a, 1)) hi rfl (Finset.mem_insert_self ..) (fun w hw hwa hout => ?_)
      hlist₄ hbare.region (fun p hp => absurd rfl hp) hcls (fun r hr hcls' hown' => ?_)
      fun b hb => ?_
    · have hwa : w ≠ a + 4 := hwa
      refine (hframe₄ w hw fun k hk => hout (a, 1) (Finset.mem_insert_self ..) k hk hcls).trans ?_
      change setArena m₂ a d (blocksPerArena i) 0 w = setArena m₂ a d 0 0 w
      unfold setArena
      by_cases hw8 : w = a + 8
      · rw [hw8, update_self, update_self]
      · rw [update_of_ne hw8, update_of_ne hwa, update_of_ne hw8,
          update_of_ne hwa]
    · rcases Finset.mem_insert.1 hr with rfl | hr
      · change m₄ (a + 4) = _
        rw [hcnt, List.countP_eq_length.2 fun b hb => ?_]
        · simp [blocks]
        · obtain ⟨k, hk, rfl⟩ := mem_blocks.1 hb
          exact decide_eq_true (block2arena_block hfresh.page hi hk)
      · have hapart := hfresh.apart r hr
        have hpos := (h.shaped.run r hr).2.2.1
        have hdr := h.descs_apart r hr
        have hne : r.1 ≠ a := by omega
        have hold : g.cls r.1 = some i := (update_of_ne hne ..).symm.trans hcls'
        have holdOwn : g.owner r.1 = descs := (update_of_ne hne ..).symm.trans hown'
        have hzero := h.count r hr i hold holdOwn
        rw [hempty, List.countP_nil] at hzero
        change m₄ (r.1 + 4) = _
        rw [hframe₄ (r.1 + 4) (by omega) fun k hk => by
            have hge := le_block (a := a) (i := i) (k := k)
            have hle := block_le (a := a) hk
            omega,
          hm₃out _ (by omega), hzero, eq_comm, List.countP_eq_zero]
        intro b hb harena
        obtain ⟨k, hk, rfl⟩ := mem_blocks.1 hb
        have harena := of_decide_eq_true harena
        rw [block2arena_block hfresh.page hi hk] at harena
        exact hne harena.symm
    · obtain ⟨k, hk, rfl⟩ := mem_blocks.1 hb
      refine ⟨?_, (a, 1), Finset.mem_insert_self .., hcls, hown, k, hk, rfl⟩
      have hge := le_block (a := a) (i := i) (k := k)
      have hle := block_le (a := a) hk
      have hsize := (blockSize_bounds hi).1
      exact h.held_fresh hfresh (by omega) (by omega)

/-- **A large block.** -/
theorem HeapOk.newLarge {grant : Grant} {n : ℕ} (h : HeapOk descs foreign g x held)
    (hfresh : Fresh descs x.runs grant.addr n) (hs : s + 12 ≤ 4096 * n) :
    HeapOk descs foreign ⟨update g.owner grant.addr descs, update g.cls grant.addr none,
        g.free⟩
      { mem := setArena (memset (fun w => if grant.addr ≤ w ∧ w < grant.addr + 4096 * n then
          grant.content w else x.mem w) grant.addr (n * 4096)) grant.addr 0 n 1
        runs := insert (grant.addr, n) x.runs }
      (update held (grant.addr + 12) (some s)) := by
  set a := grant.addr
  have hcnt := hfresh.cnt
  set y : Heap := { mem := setArena (memset (fun w => if a ≤ w ∧ w < a + 4096 * n then
    grant.content w else x.mem w) a (n * 4096)) a 0 n 1, runs := insert (a, n) x.runs }
  have hok : HeapOk descs foreign ⟨update g.owner a descs, update g.cls a none, g.free⟩ y
      held := by
    refine h.addRun hfresh rfl (fun w hw => ?_)
      (fun _ => ⟨setArena_desc, setArena_cnt, setArena_large⟩) fun i hi => by cases hi
    change setArena (memset _ a (n * 4096)) a 0 n 1 w = x.mem w
    rw [setArena_of_notMem (by omega), memset_of_notMem (by omega), if_neg (by omega)]
  have hreg : RegionIn (update g.cls a none) (a, n) (a + 12) (4096 * n - 12) :=
    Or.inl ⟨update_self .., rfl, by change _ = 4096 * n; omega⟩
  have hmem : (a, n) ∈ y.runs := Finset.mem_insert_self ..
  refine { hok with
    region := fun p s' hp => ?_
    free := fun i hi b hb => ⟨?_, (hok.free i hi b hb).2⟩ }
  · by_cases hpa : p = a + 12
    · rw [hpa, update_self] at hp
      rw [hpa]
      exact ⟨(a, n), hmem, _, hreg, Option.some.inj hp ▸ (by omega)⟩
    · rw [update_of_ne hpa] at hp
      exact hok.region p s' hp
  · -- a free block is not in the new run
    rw [update_of_ne]
    · exact (hok.free i hi b hb).1
    · intro heq
      obtain ⟨r, hr, hreg'⟩ := h.free_region hi hb
      have hin := h.shaped.regionIn_bounds hr hreg'
      have hsize := (blockSize_bounds hi).1
      have hapart := hfresh.apart r hr
      omega

/-! ## The call -/

/-- The number of pages that a request needs if it needs new pages. -/
def pagesFor (size : ℕ) : ℕ := if 1024 < size then (size + 12 + 4096 - 1) / 4096 else 1

/-- The class that `sys_malloc` chooses. -/
theorem HeapOk.descIdx (h : HeapOk descs foreign g x held) (hs : s ≤ 1024) :
    ∃ i < 7, skipWhile (fun i => x.mem (descAddr descs i) < s) 7 0 = i ∧ s ≤ blockSize i := by
  have hlast : decide (x.mem (descAddr descs 6) < s) = false := by
    rw [(h.desc 6 (by omega)).1]
    exact decide_eq_false (Nat.not_lt.2 hs)
  have hle := skipWhile_le_of_fails (p := fun i => decide (x.mem (descAddr descs i) < s)) (n := 7)
    (Nat.zero_le 6) hlast
  have hfail := skipWhile_fails (p := fun i => decide (x.mem (descAddr descs i) < s)) (n := 7)
    (i := 0) (by omega)
  refine ⟨_, by omega, rfl, ?_⟩
  have hge := of_decide_eq_false hfail
  rw [(h.desc _ (by omega)).1] at hge
  exact Nat.not_lt.1 hge

/-- **`sys_malloc` returns**: `NULL`, or a block of zeros that was not in use. -/
theorem HeapOk.sysMalloc {t : Task} {size : ℕ} {grant : Option Grant}
    (h : HeapOk t.descs foreign g x held)
    (hgrant : ∀ gr, grant = some gr → Fresh t.descs x.runs gr.addr (pagesFor size)) :
    sysMalloc t x size grant = .ok (0, x) ∨
    ∃ p y g', sysMalloc t x size grant = .ok (p, y) ∧ 0 < p ∧ held p = none ∧
      HeapOk t.descs foreign g' y (update held p (some size)) ∧
      (∀ w, p ≤ w → w < p + size → y.mem w = 0) ∧
      (∀ r ∈ y.runs, r ∈ x.runs ∨ ∃ gr, grant = some gr ∧ r = (gr.addr, pagesFor size)) ∧
      KeepsOutside t.descs x y := by
  by_cases hsize : 0 < size ∧ size < t.poolSize
  swap
  · exact Or.inl (if_pos hsize)
  unfold Memory.sysMalloc
  rw [if_neg (not_not.2 hsize)]
  by_cases hlarge : 1024 < size
  · rw [if_pos hlarge]
    cases grant with
    | none => exact Or.inl rfl
    | some gr =>
      have hfresh := hgrant gr rfl
      rw [pagesFor, if_pos hlarge] at hfresh
      set n := (size + 12 + 4096 - 1) / 4096
      have hfit : size + 12 ≤ 4096 * n := by omega
      refine Or.inr ⟨_, _, _, rfl, by omega, h.held_fresh hfresh (by omega) (by omega),
        h.newLarge hfresh hfit, fun w hw hw' => ?_, fun r hr => ?_, fun w hw _ hout => ?_⟩
      · change setArena (memset _ gr.addr (n * 4096)) gr.addr 0 n 1 w = 0
        rw [setArena_of_notMem (by omega), memset_of_mem (by omega) (by omega)]
      · rw [pagesFor, if_pos hlarge]
        exact (Finset.mem_insert.1 hr).symm.imp_right fun heq => ⟨gr, rfl, heq⟩
      · have hwa : w < gr.addr ∨ gr.addr + 4096 * n ≤ w := hout _ (Finset.mem_insert_self ..)
        change setArena (memset _ gr.addr (n * 4096)) gr.addr 0 n 1 w = x.mem w
        rw [setArena_of_notMem (by omega), memset_of_notMem (by omega)]
        exact if_neg (by omega)
  · rw [if_neg hlarge]
    obtain ⟨i, hi, hidx, hfit⟩ := h.descIdx (Nat.not_lt.1 hlarge)
    rw [hidx]
    dsimp only
    -- the free list has a block, at last after a refill
    have htake : ∀ {y : Heap} {g' : Shape}, HeapOk t.descs foreign g' y held → g'.free i ≠ [] →
        ∃ p z g'', Memory.takeBlock y (descAddr t.descs i) = (p, z) ∧ 0 < p ∧ held p = none ∧
          HeapOk t.descs foreign g'' z (update held p (some size)) ∧
          (∀ w, p ≤ w → w < p + size → z.mem w = 0) ∧ z.runs = y.runs ∧
          KeepsOutside t.descs y z := by
      intro y g' hy hne
      obtain ⟨b, rest, hfree⟩ := List.exists_cons_of_ne_nil hne
      obtain ⟨z, htake, hz, hpos, hzero, hkeep⟩ := hy.takeBlock hi hfree hfit
      exact ⟨b, z, _, htake, hpos, (hy.free i hi b (by rw [hfree]; exact List.mem_cons_self)).1, hz,
        fun w hw hw' => hzero w hw (by omega), hkeep⟩
    by_cases hempty : g.free i = []
    · cases grant with
      | none =>
        refine Or.inl ?_
        unfold refill
        rw [if_pos ((h.list i hi).listEmpty.2 hempty)]
        rfl
      | some gr =>
        have hfresh := hgrant gr rfl
        rw [pagesFor, if_neg hlarge] at hfresh
        obtain ⟨y, hrefill, hy, hruns, hkeep⟩ := h.newArena hi hempty hfresh
        obtain ⟨p, z, g'', htake, hpos, hnone, hz, hzero, hruns', hkeep'⟩ := htake hy (by
          change update g.free i _ i ≠ []
          rw [update_self]
          have := (blockSize_bounds hi).2.2.1
          intro hnil
          have hlen := congrArg List.length hnil
          simp [blocks] at hlen
          omega)
        refine Or.inr ⟨p, z, g'', ?_, hpos, hnone, hz, hzero, fun r hr => ?_,
          fun w hw hout hout' => ?_⟩
        · rw [hrefill, ok_bind, ← htake]
          rfl
        · rw [hruns', hruns] at hr
          rw [pagesFor, if_neg hlarge]
          exact (Finset.mem_insert.1 hr).symm.imp_right fun heq => ⟨gr, rfl, heq⟩
        · have hout'' : ∀ r ∈ y.runs, w < r.1 ∨ r.1 + 4096 * r.2 ≤ w := hruns' ▸ hout'
          exact (hkeep' w hw hout'' hout').trans (hkeep w hw hout hout'')
    · obtain ⟨p, z, g'', htake, hpos, hnone, hz, hzero, hruns, hkeep⟩ := htake h hempty
      refine Or.inr ⟨p, z, g'', ?_, hpos, hnone, hz, hzero, fun r hr => .inl (hruns ▸ hr), hkeep⟩
      have hfull : listEmpty x.mem (descAddr t.descs i + 8) = false :=
        Bool.eq_false_iff.2 fun hl => hempty ((h.list i hi).listEmpty.1 hl)
      unfold refill
      rw [hfull, if_neg Bool.false_ne_true, ← htake]
      rfl

end Steps

end Gardos.Memory
