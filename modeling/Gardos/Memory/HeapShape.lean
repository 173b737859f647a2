import Gardos.Memory.Heap

/-!
# The shape of the heap

The pages that the heap has are arenas: pages cut into blocks of one of the seven sizes, and runs of
pages with one large block. `RegionIn` is a block of an arena, and different blocks do not overlap
(`Shaped.region_apart`).

`HeapOk` is the invariant of `sys_malloc` and `sys_free`. It names what memory does not: the class
of each arena, the array of descriptors that the arena belongs to, and the content of the free
lists. An arena may belong to a foreign array (after `sys_fork`); nothing is known about its blocks
but where they are. The invariant depends only on the words that the allocator uses
(`HeapOk.congr`).
-/

namespace Gardos.Memory

open Function

/-! ## Sizes -/

/-- The size of the blocks of class `i`. -/
def blockSize (i : ℕ) : ℕ := 16 * 2 ^ i

/-- The number of blocks in an arena of class `i`. -/
def blocksPerArena (i : ℕ) : ℕ := 4084 / blockSize i

/-- Block `k` of the arena at `a`. -/
def block (a i k : ℕ) : ℕ := a + 12 + k * blockSize i

variable {i j k a b w : ℕ}

theorem blockSize_bounds (hi : i < 7) :
    16 ≤ blockSize i ∧ blockSize i ≤ 1024 ∧ 3 ≤ blocksPerArena i ∧ blocksPerArena i ≤ 255 := by
  unfold blocksPerArena blockSize
  interval_cases i <;> decide

/-- A block lies in the page of its arena. -/
theorem block_le (hk : k < blocksPerArena i) : block a i k + blockSize i ≤ a + 4096 := by
  have hle : (k + 1) * blockSize i ≤ blocksPerArena i * blockSize i :=
    Nat.mul_le_mul_right _ hk
  have hdiv : blocksPerArena i * blockSize i ≤ 4084 := Nat.div_mul_le_self ..
  rw [Nat.add_mul, Nat.one_mul] at hle
  unfold block
  omega

theorem le_block : a + 12 ≤ block a i k := Nat.le_add_right ..

theorem block_injective {k' : ℕ} (hi : i < 7) (h : block a i k = block a i k') : k = k' := by
  have hsize := (blockSize_bounds hi).1
  exact Nat.eq_of_mul_eq_mul_right (by omega) (Nat.add_left_cancel h)

theorem block2arena_of_mem (ha : a % 4096 = 0) (hle : a ≤ b) (hlt : b < a + 4096) :
    block2arena b = a := by
  unfold block2arena
  omega

theorem block2arena_block (ha : a % 4096 = 0) (hi : i < 7) (hk : k < blocksPerArena i) :
    block2arena (block a i k) = a := by
  have hle := block_le (a := a) hk
  have hge := le_block (a := a) (i := i) (k := k)
  have hsize := (blockSize_bounds hi).1
  exact block2arena_of_mem ha (by omega) (by omega)

/-- Different blocks of one arena do not overlap. -/
theorem block_apart {k' : ℕ} (h : k < k') : block a i k + blockSize i ≤ block a i k' := by
  have hle : (k + 1) * blockSize i ≤ k' * blockSize i := Nat.mul_le_mul_right _ h
  rw [Nat.add_mul, Nat.one_mul] at hle
  unfold block
  omega

/-- The blocks of an arena. -/
def blocks (a i n : ℕ) : List ℕ := (List.range n).map (block a i)

theorem mem_blocks {a i n b : ℕ} : b ∈ blocks a i n ↔ ∃ k < n, b = block a i k := by
  simp [blocks, eq_comm]

theorem blocks_succ (a i n : ℕ) : blocks a i (n + 1) = blocks a i n ++ [block a i n] := by
  simp [blocks, List.range_succ]

/-! ## Regions -/

/-- What memory does not say: the array of descriptors and the class (`none` for a large block) of
the arena at an address, and the content of the free lists. -/
structure Shape where
  owner : ℕ → ℕ
  cls : ℕ → Option ℕ
  free : ℕ → List ℕ

/-- A block of `n` bytes at the address `p` in the run `r`. -/
def RegionIn (cls : ℕ → Option ℕ) (r : ℕ × ℕ) (p n : ℕ) : Prop :=
  (cls r.1 = none ∧ p = r.1 + 12 ∧ n + 12 = 4096 * r.2) ∨
    ∃ i < 7, ∃ k < blocksPerArena i, cls r.1 = some i ∧ p = block r.1 i k ∧ n = blockSize i

/-- The runs are runs of pages, they do not overlap, and an arena with blocks is one page. -/
structure Shaped (runs : Finset (ℕ × ℕ)) (cls : ℕ → Option ℕ) : Prop where
  run : ∀ r ∈ runs, r.1 % 4096 = 0 ∧ 0 < r.1 ∧ 0 < r.2 ∧ r.1 + 4096 * r.2 ≤ 4294967296
  apart : ∀ r ∈ runs, ∀ r' ∈ runs, r ≠ r' → r.1 + 4096 * r.2 ≤ r'.1 ∨ r'.1 + 4096 * r'.2 ≤ r.1
  one : ∀ r ∈ runs, cls r.1 ≠ none → r.2 = 1

section Regions

variable {runs : Finset (ℕ × ℕ)} {cls : ℕ → Option ℕ} {r r' : ℕ × ℕ} {p q n n' : ℕ}

/-- A region lies in its run, behind the header. -/
theorem Shaped.regionIn_bounds (hs : Shaped runs cls) (hr : r ∈ runs) (h : RegionIn cls r p n) :
    r.1 + 12 ≤ p ∧ p + n ≤ r.1 + 4096 * r.2 := by
  obtain ⟨-, hp, hn⟩ | ⟨i, hi, k, hk, hcls, hp, hn⟩ := h
  · exact ⟨by omega, by omega⟩
  · have hone := hs.one r hr (by rw [hcls]; exact Option.some_ne_none i)
    have hle := block_le (a := r.1) hk
    have hge := le_block (a := r.1) (i := i) (k := k)
    exact ⟨by omega, by omega⟩

theorem Shaped.regionIn_pos (hs : Shaped runs cls) (hr : r ∈ runs) (h : RegionIn cls r p n) :
    0 < n := by
  obtain ⟨-, -, hn⟩ | ⟨i, hi, -, -, -, -, hn⟩ := h
  · have := (hs.run r hr).2.2.1
    omega
  · have := (blockSize_bounds hi).1
    omega

/-- Runs with a common address are the same. -/
theorem Shaped.run_eq (hs : Shaped runs cls) (hr : r ∈ runs) (hr' : r' ∈ runs) (h1 : r.1 ≤ w)
    (h2 : w < r.1 + 4096 * r.2) (h1' : r'.1 ≤ w) (h2' : w < r'.1 + 4096 * r'.2) : r = r' := by
  by_contra hne
  have := hs.apart r hr r' hr' hne
  omega

/-- **Regions do not overlap.** -/
theorem Shaped.region_apart (hs : Shaped runs cls) (hr : r ∈ runs) (hr' : r' ∈ runs)
    (hp : RegionIn cls r p n) (hq : RegionIn cls r' q n') (hne : p ≠ q) :
    p + n ≤ q ∨ q + n' ≤ p := by
  by_cases hrr : r = r'
  swap
  · have hpr := hs.regionIn_bounds hr hp
    have hqr := hs.regionIn_bounds hr' hq
    have := hs.apart r hr r' hr' hrr
    omega
  rw [← hrr] at hq
  obtain ⟨hnone, hp, -⟩ | ⟨i, -, k, -, hcls, hp, hn⟩ := hp <;>
    obtain ⟨hnone', hq, -⟩ | ⟨i', -, k', -, hcls', hq, hn'⟩ := hq
  · omega
  · rw [hnone] at hcls'
    cases hcls'
  · rw [hcls] at hnone'
    cases hnone'
  · obtain rfl : i = i' := Option.some.inj (hcls.symm.trans hcls')
    rcases Nat.lt_trichotomy k k' with hlt | heq | hlt
    · have := block_apart (a := r.1) (i := i) hlt
      omega
    · rw [heq] at hp
      omega
    · have := block_apart (a := r.1) (i := i) hlt
      omega

/-- A region and the header of an arena. -/
theorem Shaped.header_apart (hs : Shaped runs cls) (hr : r ∈ runs) (hr' : r' ∈ runs)
    (hp : RegionIn cls r p n) : p + n ≤ r'.1 ∨ r'.1 + 12 ≤ p := by
  have hpr := hs.regionIn_bounds hr hp
  have hpos := (hs.run r' hr').2.2.1
  by_cases hrr : r = r'
  · rw [← hrr]
    omega
  · have := hs.apart r hr r' hr' hrr
    omega

end Regions

/-! ## The invariant -/

/-- The invariant of the heap with the descriptors at `descs`; `held p = some s` tells that the
thread holds a block of `s` bytes at `p`, and `foreign` are the other arrays that arenas may belong
to. -/
structure HeapOk (descs : ℕ) (foreign : Finset ℕ) (g : Shape) (x : Heap)
    (held : ℕ → Option ℕ) : Prop where
  descs_pos : 0 < descs
  shaped : Shaped x.runs g.cls
  descs_apart : ∀ r ∈ x.runs, r.1 + 4096 * r.2 ≤ descs ∨ descs + 168 ≤ r.1
  region : ∀ p s, held p = some s → ∃ r ∈ x.runs, ∃ n, RegionIn g.cls r p n ∧ s ≤ n
  large : ∀ r ∈ x.runs, g.cls r.1 = none →
    x.mem r.1 = 0 ∧ x.mem (r.1 + 4) = r.2 ∧ x.mem (r.1 + 8) = 1
  small : ∀ r ∈ x.runs, ∀ i, g.cls r.1 = some i →
    i < 7 ∧ x.mem r.1 = descAddr (g.owner r.1) i ∧ x.mem (r.1 + 8) = 0
  owner : ∀ r ∈ x.runs, g.cls r.1 ≠ none → g.owner r.1 = descs ∨ g.owner r.1 ∈ foreign
  count : ∀ r ∈ x.runs, ∀ i, g.cls r.1 = some i → g.owner r.1 = descs →
    x.mem (r.1 + 4) = (g.free i).countP fun b => block2arena b = r.1
  desc : ∀ i < 7, x.mem (descAddr descs i) = blockSize i ∧
    x.mem (descAddr descs i + 4) = blocksPerArena i
  list : ∀ i < 7, IsList x.mem (descAddr descs i + 8) (g.free i)
  free : ∀ i < 7, ∀ b ∈ g.free i, held b = none ∧ ∃ r ∈ x.runs, g.cls r.1 = some i ∧
    g.owner r.1 = descs ∧ ∃ k < blocksPerArena i, b = block r.1 i k

section Invariant

variable {descs : ℕ} {foreign : Finset ℕ} {g : Shape} {x x' : Heap} {held : ℕ → Option ℕ}
  {r : ℕ × ℕ} {p : ℕ}

theorem descAddr_bounds (descs : ℕ) (hi : i < 7) :
    descs ≤ descAddr descs i ∧ descAddr descs i + 24 ≤ descs + 168 := by
  unfold descAddr
  omega

/-- What the header of a run tells. -/
structure HeadOk (descs : ℕ) (foreign : Finset ℕ) (g : Shape) (m : Words) (r : ℕ × ℕ) : Prop where
  large : g.cls r.1 = none → m r.1 = 0 ∧ m (r.1 + 4) = r.2 ∧ m (r.1 + 8) = 1
  small : ∀ i, g.cls r.1 = some i →
    i < 7 ∧ m r.1 = descAddr (g.owner r.1) i ∧ m (r.1 + 8) = 0
  owner : g.cls r.1 ≠ none → g.owner r.1 = descs ∨ g.owner r.1 ∈ foreign
  count : ∀ i, g.cls r.1 = some i → g.owner r.1 = descs →
    m (r.1 + 4) = (g.free i).countP fun b => block2arena b = r.1

/-- A header that is not written to, of a run that stays what it is. -/
theorem HeadOk.congr {g' : Shape} {m m' : Words} (h : HeadOk descs foreign g m r)
    (hcls : g'.cls r.1 = g.cls r.1) (hown : g'.owner r.1 = g.owner r.1)
    (hfree : ∀ j, g.cls r.1 = some j → g'.free j = g.free j)
    (hm : ∀ w, r.1 ≤ w → w < r.1 + 12 → m' w = m w) : HeadOk descs foreign g' m' r := by
  have h0 := hm r.1 le_rfl (by omega)
  have h4 := hm (r.1 + 4) (by omega) (by omega)
  have h8 := hm (r.1 + 8) (by omega) (by omega)
  obtain ⟨hlarge, hsmall, howner, hcount⟩ := h
  rw [← hcls, ← h0, ← h4, ← h8] at hlarge
  rw [← hcls, ← hown, ← h0, ← h8] at hsmall
  rw [← hcls, ← hown] at howner
  refine ⟨hlarge, hsmall, howner, fun j hj hd => ?_⟩
  rw [hcls] at hj
  rw [h4, hcount j hj (hown ▸ hd), hfree j hj]

/-- Memory outside the descriptors and the runs, before and after, is as before. -/
def KeepsOutside (descs : ℕ) (x x' : Heap) : Prop :=
  ∀ w, w < descs ∨ descs + 168 ≤ w → (∀ r ∈ x.runs, w < r.1 ∨ r.1 + 4096 * r.2 ≤ w) →
    (∀ r ∈ x'.runs, w < r.1 ∨ r.1 + 4096 * r.2 ≤ w) → x'.mem w = x.mem w

/-- Memory is as before, but for the links of the free list of class `i`, the blocks of the class
and the count of the arena at `a`. -/
def KeepsOthers (descs i a : ℕ) (cls : ℕ → Option ℕ) (x x' : Heap) : Prop :=
  ∀ w, w < descAddr descs i + 8 ∨ descAddr descs i + 24 ≤ w → w ≠ a + 4 →
    (∀ r ∈ x.runs, ∀ k < blocksPerArena i, cls r.1 = some i →
      w < block r.1 i k ∨ block r.1 i k + blockSize i ≤ w) → x'.mem w = x.mem w

theorem KeepsOthers.keepsOutside (h : KeepsOthers descs i r.1 g.cls x x')
    (hs : Shaped x.runs g.cls) (hi : i < 7) (hr : r ∈ x.runs) : KeepsOutside descs x x' := by
  intro w hw hout _
  have hd := descAddr_bounds descs hi
  refine h w (by omega) (fun heq => ?_) fun r' hr' k hk hcls => ?_
  · have hpos := (hs.run r hr).2.2.1
    have := hout r hr
    omega
  · have hin := hs.regionIn_bounds hr' (Or.inr ⟨i, hi, k, hk, hcls, rfl, rfl⟩)
    have := hout r' hr'
    omega

/-- A run of pages that is not in use. -/
structure Fresh (descs : ℕ) (runs : Finset (ℕ × ℕ)) (a n : ℕ) : Prop where
  page : a % 4096 = 0
  pos : 0 < a
  cnt : 0 < n
  le : a + 4096 * n ≤ 4294967296
  apart : ∀ r ∈ runs, r.1 + 4096 * r.2 ≤ a ∨ a + 4096 * n ≤ r.1
  descs : a + 4096 * n ≤ descs ∨ descs + 168 ≤ a

/-- The words of the nodes of a free list: in the descriptor, or in a free block. -/
theorem node_cases {xs : List ℕ} (hw : w ∈ listNodes (descAddr descs i + 8) xs) :
    (w = descAddr descs i + 8 ∨ w = descAddr descs i + 16) ∨ w ∈ xs := by
  rcases mem_listNodes.1 hw with hw | hw | hw
  · exact Or.inl (Or.inl hw)
  · exact Or.inr hw
  · exact Or.inl (Or.inr hw)

variable (h : HeapOk descs foreign g x held)

include h

/-- A free block as a region. -/
theorem HeapOk.free_region (hi : i < 7) (hb : b ∈ g.free i) :
    ∃ r ∈ x.runs, RegionIn g.cls r b (blockSize i) := by
  obtain ⟨-, r, hr, hcls, -, k, hk, rfl⟩ := h.free i hi b hb
  exact ⟨r, hr, Or.inr ⟨i, hi, k, hk, hcls, rfl, rfl⟩⟩

/-- The words of a header are not words of a node. -/
theorem HeapOk.node_header (hi : i < 7)
    (hb : b ∈ listNodes (descAddr descs i + 8) (g.free i)) (hr : r ∈ x.runs) (hw : r.1 ≤ w)
    (hw' : w < r.1 + 12) : w ≠ b ∧ w ≠ b + 4 := by
  have hd := descAddr_bounds descs hi
  have hdr := h.descs_apart r hr
  have hpos := (h.shaped.run r hr).2.2.1
  have hsize := (blockSize_bounds hi).1
  rcases node_cases hb with hb | hb
  · omega
  · obtain ⟨r', hr', hreg⟩ := h.free_region hi hb
    have := h.shaped.header_apart hr' hr hreg
    omega

/-- Nor are the words of a descriptor in front of its list. -/
theorem HeapOk.node_desc (hi : i < 7)
    (hb : b ∈ listNodes (descAddr descs i + 8) (g.free i)) :
    descAddr descs i ≠ b ∧ descAddr descs i ≠ b + 4 := by
  have hd := descAddr_bounds descs hi
  rcases node_cases hb with hb | hb
  · omega
  · obtain ⟨r, hr, hreg⟩ := h.free_region hi hb
    have hin := h.shaped.regionIn_bounds hr hreg
    have hdr := h.descs_apart r hr
    have hsize := (blockSize_bounds hi).1
    omega

/-- A word outside the list and the blocks of its class is not a word of a node. -/
theorem HeapOk.node_outside (hi : i < 7)
    (hb : b ∈ listNodes (descAddr descs i + 8) (g.free i))
    (hw : w < descAddr descs i + 8 ∨ descAddr descs i + 24 ≤ w)
    (hout : ∀ r ∈ x.runs, ∀ k < blocksPerArena i, g.cls r.1 = some i →
      w < block r.1 i k ∨ block r.1 i k + blockSize i ≤ w) : w ≠ b ∧ w ≠ b + 4 := by
  rcases node_cases hb with hb | hb
  · omega
  · obtain ⟨-, r, hr, hcls, -, k, hk, rfl⟩ := h.free i hi b hb
    have := hout r hr k hk hcls
    have hsize := (blockSize_bounds hi).1
    omega

theorem HeapOk.head (hr : r ∈ x.runs) :
    HeadOk descs foreign g x.mem r :=
  ⟨h.large r hr, h.small r hr, h.owner r hr, h.count r hr⟩

/-- Descriptors and free lists that are not written to. -/
theorem HeapOk.lists {m : Words}
    (hdescs : ∀ w, descs ≤ w → w < descs + 168 → m w = x.mem w)
    (hfree : ∀ i < 7, ∀ b ∈ g.free i, m b = x.mem b ∧ m (b + 4) = x.mem (b + 4)) :
    ∀ i < 7, (m (descAddr descs i) = blockSize i ∧ m (descAddr descs i + 4) = blocksPerArena i) ∧
      IsList m (descAddr descs i + 8) (g.free i) := by
  intro i hi
  have hd := descAddr_bounds descs hi
  refine ⟨?_, (h.list i hi).congr fun w hw => ?_⟩
  · rw [hdescs _ (by omega) (by omega), hdescs _ (by omega) (by omega)]
    exact h.desc i hi
  · rcases node_cases hw with hw | hw
    · exact ⟨hdescs _ (by omega) (by omega), hdescs _ (by omega) (by omega)⟩
    · exact hfree i hi w hw

/-- **The invariant depends only on the words of the allocator**: descriptors, headers, and the
links in free blocks. -/
theorem HeapOk.congr (hruns : x'.runs = x.runs)
    (hdescs : ∀ w, descs ≤ w → w < descs + 168 → x'.mem w = x.mem w)
    (hheader : ∀ r ∈ x.runs, ∀ w, r.1 ≤ w → w < r.1 + 12 → x'.mem w = x.mem w)
    (hfree : ∀ i < 7, ∀ b ∈ g.free i, x'.mem b = x.mem b ∧ x'.mem (b + 4) = x.mem (b + 4)) :
    HeapOk descs foreign g x' held := by
  have hhead : ∀ r ∈ x'.runs, HeadOk descs foreign g x'.mem r := fun r hr => by
    rw [hruns] at hr
    exact (h.head hr).congr rfl rfl (fun _ _ => rfl) (hheader r hr)
  have hlists := h.lists hdescs hfree
  exact ⟨h.descs_pos, hruns ▸ h.shaped, hruns ▸ h.descs_apart, hruns ▸ h.region,
    fun r hr => (hhead r hr).large, fun r hr => (hhead r hr).small,
    fun r hr => (hhead r hr).owner, fun r hr => (hhead r hr).count,
    fun i hi => (hlists i hi).1, fun i hi => (hlists i hi).2, hruns ▸ h.free⟩

/-- Writing to a held block. -/
theorem HeapOk.write {s : ℕ} (hp : held p = some s) (hle : p ≤ w)
    (hlt : w < p + s) (v : ℕ) : HeapOk descs foreign g { x with mem := update x.mem w v } held := by
  obtain ⟨r, hr, n, hreg, hsn⟩ := h.region p s hp
  obtain ⟨hlow, hhigh⟩ := h.shaped.regionIn_bounds hr hreg
  have hdescs := h.descs_apart r hr
  refine h.congr rfl (fun w' hw hw' => ?_) (fun r' hr' w' hw hw' => ?_) fun i hi b hb => ?_
  · exact update_of_ne (by omega) ..
  · have := h.shaped.header_apart hr hr' hreg
    exact update_of_ne (by omega) ..
  · obtain ⟨r', hr', hreg'⟩ := h.free_region hi hb
    have hne : p ≠ b := fun heq => by
      rw [heq, (h.free i hi b hb).1] at hp
      cases hp
    have hapart := h.shaped.region_apart hr hr' hreg hreg' hne
    have hsize := (blockSize_bounds hi).1
    exact ⟨update_of_ne (by omega) .., update_of_ne (by omega) ..⟩

/-- A free block is in an arena of its class. -/
theorem HeapOk.free_arena (hi : i < 7) (hb : b ∈ g.free i) :
    ∃ r ∈ x.runs, g.cls r.1 = some i ∧ g.owner r.1 = descs ∧ block2arena b = r.1 := by
  obtain ⟨-, r, hr, hcls, hown, k, hk, rfl⟩ := h.free i hi b hb
  exact ⟨r, hr, hcls, hown, block2arena_block (h.shaped.run r hr).1 hi hk⟩

/-- The free blocks of an arena are blocks of the arena, each at most once. -/
theorem HeapOk.free_subperm (hi : i < 7) (r : ℕ × ℕ) :
    ((g.free i).filter fun b => block2arena b = r.1).Subperm
      (blocks r.1 i (blocksPerArena i)) := by
  refine ((h.list i hi).nodup.filter _).subperm fun b hb => ?_
  obtain ⟨hb, harena⟩ := List.mem_filter.1 hb
  have harena := of_decide_eq_true harena
  obtain ⟨-, r', hr', -, -, k, hk, rfl⟩ := h.free i hi b hb
  rw [block2arena_block (h.shaped.run r' hr').1 hi hk] at harena
  exact mem_blocks.2 ⟨k, hk, by rw [harena]⟩

theorem HeapOk.count_le (hi : i < 7) (r : ℕ × ℕ) :
    ((g.free i).countP fun b => block2arena b = r.1) ≤ 255 := by
  have hle := (h.free_subperm hi r).length_le
  rw [← List.countP_eq_length_filter, blocks, List.length_map, List.length_range] at hle
  exact hle.trans (blockSize_bounds hi).2.2.2

/-- **One free list changes**, and the blocks of its class may be written to; so may the count of
the arena at `a`. -/
theorem HeapOk.relist {held' : ℕ → Option ℕ} {ys : List ℕ} (hi : i < 7)
    (hruns : x'.runs = x.runs) (hr : r ∈ x.runs)
    (hframe : KeepsOthers descs i r.1 g.cls x x')
    (hlist : IsList x'.mem (descAddr descs i + 8) ys)
    (hregion : ∀ p s, held' p = some s → ∃ r ∈ x.runs, ∃ n, RegionIn g.cls r p n ∧ s ≤ n)
    (hheld : ∀ p, held' p ≠ held p → g.cls (block2arena p) = some i)
    (hcls : g.cls r.1 = some i)
    (hcount : ∀ r' ∈ x.runs, g.cls r'.1 = some i → g.owner r'.1 = descs →
      x'.mem (r'.1 + 4) = ys.countP fun b => block2arena b = r'.1)
    (hfree : ∀ b ∈ ys, held' b = none ∧ ∃ r ∈ x.runs, g.cls r.1 = some i ∧
      g.owner r.1 = descs ∧ ∃ k < blocksPerArena i, b = block r.1 i k) :
    HeapOk descs foreign { g with free := update g.free i ys } x' held' := by
  have hself : update g.free i ys i = ys := update_self ..
  have hother : ∀ j, j ≠ i → update g.free i ys j = g.free j := fun j hj =>
    update_of_ne hj ..
  -- no word of a header is in a block
  have hheader : ∀ r' ∈ x.runs, ∀ w, r'.1 ≤ w → w < r'.1 + 12 → w ≠ r.1 + 4 →
      x'.mem w = x.mem w := by
    intro r' hr' w hw hw' hne
    have hd := descAddr_bounds descs hi
    have hdr := h.descs_apart r' hr'
    have hpos := (h.shaped.run r' hr').2.2.1
    refine hframe w (by omega) hne fun r'' hr'' k hk hcls'' => ?_
    have := h.shaped.header_apart hr'' hr' (Or.inr ⟨i, hi, k, hk, hcls'', rfl, rfl⟩)
    omega
  -- two headers have no word in common
  have hne : ∀ r' ∈ x.runs, ∀ w, r'.1 ≤ w → w < r'.1 + 12 → r' ≠ r → w ≠ r.1 + 4 := by
    intro r' hr' w hw hw' hrr heq
    have hpos := (h.shaped.run r' hr').2.2.1
    have hpos' := (h.shaped.run r hr).2.2.1
    have := h.shaped.apart r' hr' r hr hrr
    omega
  -- descriptors outside the list are not written to
  have hdesc : ∀ w, descs ≤ w → w < descs + 168 →
      w < descAddr descs i + 8 ∨ descAddr descs i + 24 ≤ w → x'.mem w = x.mem w := by
    intro w hw hw' hout
    refine hframe w hout ?_ fun r' hr' k hk hcls' => ?_
    · have hdr := h.descs_apart r hr
      have hpos := (h.shaped.run r hr).2.2.1
      omega
    · have hdr := h.descs_apart r' hr'
      have hin := h.shaped.regionIn_bounds hr' (Or.inr ⟨i, hi, k, hk, hcls', rfl, rfl⟩)
      omega
  have hhead : ∀ r' ∈ x'.runs,
      HeadOk descs foreign { g with free := update g.free i ys } x'.mem r' := by
    intro r' hr'
    rw [hruns] at hr'
    by_cases hc : g.cls r'.1 = some i
    · have hword : ∀ k < 12, k ≠ 4 → x'.mem (r'.1 + k) = x.mem (r'.1 + k) := fun k hk hk4 => by
        refine hheader r' hr' _ (by omega) (by omega) ?_
        by_cases hrr : r' = r
        · rw [hrr]
          omega
        · exact hne r' hr' _ (by omega) (by omega) hrr
      refine ⟨fun hnone => absurd (hc.symm.trans hnone) (Option.some_ne_none i), fun j hj => ?_,
        h.owner r' hr', fun j hj hown => ?_⟩
      · obtain ⟨hj, hd, hl⟩ := h.small r' hr' j hj
        exact ⟨hj, (hword 0 (by omega) (by omega)).trans hd,
          (hword 8 (by omega) (by omega)).trans hl⟩
      · obtain rfl : i = j := Option.some.inj (hc.symm.trans hj)
        change x'.mem (r'.1 + 4) = (update g.free i ys i).countP _
        rw [hself]
        exact hcount r' hr' hc hown
    · exact (h.head hr').congr rfl rfl (fun j hj => hother j fun hji => hc (hji ▸ hj))
        fun w hw hw' => hheader r' hr' w hw hw' (hne r' hr' w hw hw' fun heq => hc (heq ▸ hcls))
  refine ⟨h.descs_pos, hruns ▸ h.shaped, hruns ▸ h.descs_apart, hruns ▸ hregion,
    fun r' hr' => (hhead r' hr').large, fun r' hr' => (hhead r' hr').small, hruns ▸ h.owner,
    fun r' hr' => (hhead r' hr').count, fun j hj => ?_, fun j hj => ?_, fun j hj b hb => ?_⟩
  · have hd := descAddr_bounds descs hj
    have hij : descAddr descs j + 4 < descAddr descs i + 8 ∨
        descAddr descs i + 24 ≤ descAddr descs j := by
      unfold descAddr
      omega
    rw [hdesc _ (by omega) (by omega) (by omega), hdesc _ (by omega) (by omega) (by omega)]
    exact h.desc j hj
  · change IsList x'.mem (descAddr descs j + 8) (update g.free i ys j)
    by_cases hji : j = i
    · rw [hji, hself]
      exact hlist
    · rw [hother j hji]
      refine (h.list j hj).congr fun w hw => ?_
      have hd := descAddr_bounds descs hj
      have hij : descAddr descs j + 24 ≤ descAddr descs i ∨
          descAddr descs i + 24 ≤ descAddr descs j := by
        unfold descAddr
        omega
      rcases node_cases hw with hw | hw
      · exact ⟨hdesc _ (by omega) (by omega) (by omega), hdesc _ (by omega) (by omega) (by omega)⟩
      · -- blocks of another class
        obtain ⟨r', hr', hreg'⟩ := h.free_region hj hw
        obtain ⟨-, r'', hr'', hcls'', -, k, hk, hwk⟩ := h.free j hj w hw
        have hin := h.shaped.regionIn_bounds hr' hreg'
        have hdr := h.descs_apart r' hr'
        have hdi := descAddr_bounds descs hi
        have hsize := (blockSize_bounds hj).1
        have hhead := h.shaped.header_apart hr' hr hreg'
        have hout : ∀ r₁ ∈ x.runs, ∀ k₁ < blocksPerArena i, g.cls r₁.1 = some i →
            w + blockSize j ≤ block r₁.1 i k₁ ∨ block r₁.1 i k₁ + blockSize i ≤ w := by
          intro r₁ hr₁ k₁ hk₁ hcls₁
          refine h.shaped.region_apart hr' hr₁ hreg' (Or.inr ⟨i, hi, k₁, hk₁, hcls₁, rfl, rfl⟩) ?_
          intro heq
          have h₁ := block2arena_block (h.shaped.run r₁ hr₁).1 hi hk₁
          have h₂ := block2arena_block (h.shaped.run r'' hr'').1 hj hk
          rw [← hwk, heq, h₁] at h₂
          rw [← h₂, hcls₁] at hcls''
          exact hji (Option.some.inj hcls'').symm
        refine ⟨hframe w (by omega) (by omega) fun r₁ hr₁ k₁ hk₁ hcls₁ => ?_,
          hframe (w + 4) (by omega) (by omega) fun r₁ hr₁ k₁ hk₁ hcls₁ => ?_⟩
        · have := hout r₁ hr₁ k₁ hk₁ hcls₁
          omega
        · have := hout r₁ hr₁ k₁ hk₁ hcls₁
          omega
  · change b ∈ update g.free i ys j at hb
    rw [hruns]
    by_cases hji : j = i
    · rw [hji] at hb ⊢
      rw [hself] at hb
      exact hfree b hb
    · rw [hother j hji] at hb
      obtain ⟨hnone, hblock⟩ := h.free j hj b hb
      refine ⟨?_, hblock⟩
      by_contra hheld'
      obtain ⟨r', -, hcls', -, harena⟩ := h.free_arena hj hb
      have := hheld b (by rw [hnone]; exact hheld')
      rw [harena, hcls'] at this
      exact hji (Option.some.inj this)

/-! ## New pages -/

/-- Nothing is held in a fresh run. -/
theorem HeapOk.held_fresh {n : ℕ}
    (hfresh : Fresh descs x.runs a n) (hle : a ≤ p) (hlt : p < a + 4096 * n) : held p = none := by
  by_contra hheld
  obtain ⟨s, hs⟩ := Option.ne_none_iff_exists'.1 hheld
  obtain ⟨r, hr, m, hreg, -⟩ := h.region _ s hs
  have hin := h.shaped.regionIn_bounds hr hreg
  have hpos := h.shaped.regionIn_pos hr hreg
  have hapart := hfresh.apart r hr
  omega

/-- **A run is added**, as a large block or as an arena without free blocks. -/
theorem HeapOk.addRun {n : ℕ} {c : Option ℕ}
    (hfresh : Fresh descs x.runs a n) (hruns : x'.runs = insert (a, n) x.runs)
    (hframe : ∀ w, w < a ∨ a + 4096 * n ≤ w → x'.mem w = x.mem w)
    (hlarge : c = none → x'.mem a = 0 ∧ x'.mem (a + 4) = n ∧ x'.mem (a + 8) = 1)
    (hsmall : ∀ i, c = some i → i < 7 ∧ n = 1 ∧ x'.mem a = descAddr descs i ∧
      x'.mem (a + 4) = 0 ∧ x'.mem (a + 8) = 0) :
    HeapOk descs foreign ⟨update g.owner a descs, update g.cls a c, g.free⟩ x' held := by
  have hbase : ∀ r ∈ x.runs, r.1 ≠ a := fun r hr heq => by
    have hpos := (h.shaped.run r hr).2.2.1
    have := hfresh.apart r hr
    have := hfresh.cnt
    omega
  have hmem : ∀ r ∈ x'.runs, r = (a, n) ∨ r ∈ x.runs := fun r hr =>
    Finset.mem_insert.1 (hruns ▸ hr)
  have hkeep : ∀ r ∈ x.runs, r ∈ x'.runs := fun r hr => hruns ▸ Finset.mem_insert_of_mem hr
  have hcls : ∀ r ∈ x.runs, update g.cls a c r.1 = g.cls r.1 := fun r hr =>
    update_of_ne (hbase r hr) ..
  have hown : ∀ r ∈ x.runs, update g.owner a descs r.1 = g.owner r.1 := fun r hr =>
    update_of_ne (hbase r hr) ..
  have hnew : update g.cls a c a = c := update_self ..
  have hword : ∀ r ∈ x.runs, ∀ w, r.1 ≤ w → w < r.1 + 4096 * r.2 → x'.mem w = x.mem w :=
    fun r hr w hw hw' => hframe w (by have := hfresh.apart r hr; omega)
  have hdesc : ∀ w, descs ≤ w → w < descs + 168 → x'.mem w = x.mem w := fun w hw hw' =>
    hframe w (by have := hfresh.descs; omega)
  have hregion : ∀ r ∈ x.runs, ∀ {p m : ℕ}, RegionIn g.cls r p m →
      RegionIn (update g.cls a c) r p m := fun r hr p m hreg => by
    unfold RegionIn at hreg ⊢
    rw [hcls r hr]
    exact hreg
  have hhead : ∀ r ∈ x'.runs, HeadOk descs foreign
      ⟨update g.owner a descs, update g.cls a c, g.free⟩ x'.mem r := fun r hr => by
    rcases hmem r hr with rfl | hr
    · refine ⟨fun hc => hlarge (hnew.symm.trans hc), fun i hc => ?_,
        fun _ => Or.inl (update_self ..), fun i hc _ => ?_⟩
      · obtain ⟨hi, -, hd, -, hl⟩ := hsmall i (hnew.symm.trans hc)
        refine ⟨hi, ?_, hl⟩
        change _ = descAddr (update g.owner a descs a) i
        rw [update_self]
        exact hd
      · -- the new arena has no free blocks
        obtain ⟨hi, -, -, hcnt, -⟩ := hsmall i (hnew.symm.trans hc)
        rw [hcnt, eq_comm, List.countP_eq_zero]
        intro b hb harena
        obtain ⟨r', hr', -, -, harena'⟩ := h.free_arena hi hb
        exact hbase r' hr' (harena'.symm.trans (of_decide_eq_true harena))
    · have hpos := (h.shaped.run r hr).2.2.1
      exact (h.head hr).congr (hcls r hr) (hown r hr) (fun _ _ => rfl) fun w hw hw' =>
        hword r hr w hw (by omega)
  have hlists := h.lists hdesc fun i hi b hb => by
    obtain ⟨r, hr, hreg⟩ := h.free_region hi hb
    have hin := h.shaped.regionIn_bounds hr hreg
    have hsize := (blockSize_bounds hi).1
    exact ⟨hword r hr _ (by omega) (by omega), hword r hr _ (by omega) (by omega)⟩
  refine ⟨h.descs_pos, ⟨fun r hr => ?_, fun r hr r' hr' hne => ?_, fun r hr hc => ?_⟩,
    fun r hr => ?_, fun p s hp => ?_, fun r hr => (hhead r hr).large,
    fun r hr => (hhead r hr).small, fun r hr => (hhead r hr).owner,
    fun r hr => (hhead r hr).count, fun i hi => (hlists i hi).1, fun i hi => (hlists i hi).2,
    fun i hi b hb => ?_⟩
  · rcases hmem r hr with rfl | hr
    · exact ⟨hfresh.page, hfresh.pos, hfresh.cnt, hfresh.le⟩
    · exact h.shaped.run r hr
  · rcases hmem r hr with rfl | hr <;> rcases hmem r' hr' with rfl | hr'
    · exact absurd rfl hne
    · exact (hfresh.apart r' hr').symm
    · exact hfresh.apart r hr
    · exact h.shaped.apart r hr r' hr' hne
  · change update g.cls a c r.1 ≠ none at hc
    rcases hmem r hr with rfl | hr
    · rw [hnew] at hc
      obtain ⟨i, hi⟩ := Option.ne_none_iff_exists'.1 hc
      exact (hsmall i hi).2.1
    · rw [hcls r hr] at hc
      exact h.shaped.one r hr hc
  · rcases hmem r hr with rfl | hr
    · exact hfresh.descs
    · exact h.descs_apart r hr
  · obtain ⟨r, hr, m, hreg, hs⟩ := h.region p s hp
    exact ⟨r, hkeep r hr, m, hregion r hr hreg, hs⟩
  · obtain ⟨hnone, r, hr, hc, ho, hblock⟩ := h.free i hi b hb
    exact ⟨hnone, r, hkeep r hr, (hcls r hr).trans hc, (hown r hr).trans ho, hblock⟩

end Invariant

end Gardos.Memory
