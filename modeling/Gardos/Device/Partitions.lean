import Gardos.Device.Ide
import Gardos.Fs.Format

/-!
# Partition discovery (`partition_scan` and `ide_init`), and the search of `filesys_init`

`ide_init` scans the second drive of each channel. `partition_scan` walks the partition table in the
first sector, and follows an extended entry to the tables of the extended partition, whose own
extended entries count from the start of the first (`ext_lba_base`). `filesys_init` then visits the
partitions of these drives and formats those without the magic number.

Both loops go on with variables of the drive before. `ext_lba_base` is set once and for all, so a
drive that is scanned after one with an extended partition is scanned with a foreign base
(`scansAlike_iff`); and `part_idx` has reached 12 when the second drive is visited, so only the
partitions of the first are formatted (`allMagic_iff`).
-/

namespace Gardos.Device

open Bytes Outcome Fs Function

/-! ## Partition tables -/

/-- The fields of `struct partition_table_entry` that the source reads. -/
structure PartitionTableEntry where
  fsType : ℕ
  startLba : ℕ
  secCnt : ℕ
  deriving DecidableEq

/-- The table in a boot sector: four entries of 16 bytes, from byte 446 on. -/
def partitionTable (bs : Buf) : List PartitionTableEntry :=
  (List.range 4).map fun k =>
    { fsType := (bs (446 + 16 * k + 4)).toNat
      startLba := getLe32 (window bs (446 + 16 * k + 8))
      secCnt := getLe32 (window bs (446 + 16 * k + 12)) }

/-- An entry of an extended partition. -/
def PartitionTableEntry.Extended (p : PartitionTableEntry) : Prop := p.fsType = 5

/-- An entry of a partition. -/
def PartitionTableEntry.Plain (p : PartitionTableEntry) : Prop := p.fsType ≠ 5 ∧ p.fsType ≠ 0

instance (p : PartitionTableEntry) : Decidable p.Extended := inferInstanceAs (Decidable (_ = _))

instance (p : PartitionTableEntry) : Decidable p.Plain := inferInstanceAs (Decidable (_ ∧ _))

/-- An entry is a link, is not used, or is a partition. -/
theorem PartitionTableEntry.kind (p : PartitionTableEntry) :
    p.Extended ∧ ¬ p.Plain ∨ p.fsType = 0 ∧ ¬ p.Extended ∧ ¬ p.Plain ∨ p.Plain ∧ ¬ p.Extended := by
  unfold Extended Plain
  omega

/-! ## The functions of the source -/

/-- `start_lba` and `sec_cnt` of a `struct partition`. -/
structure Extent where
  startLba : ℕ
  secCnt : ℕ
  deriving DecidableEq

/-- `prim_parts` and `logic_parts` of a `struct disk`. -/
structure DiskParts where
  primParts : ℕ → Extent
  logicParts : ℕ → Extent

/-- The disk structures are in the bss segment. -/
def DiskParts.zero : DiskParts := ⟨fun _ => ⟨0, 0⟩, fun _ => ⟨0, 0⟩⟩

/-- The global variables that `partition_scan` works on, and the partitions of the disk. -/
structure ScanState where
  extLbaBase : ℕ
  pNo : ℕ
  lNo : ℕ
  parts : DiskParts

/-- A primary partition has been found. -/
def ScanState.addPrim (st : ScanState) (e : Extent) : ScanState :=
  { st with
    pNo := st.pNo + 1
    parts := { st.parts with primParts := update st.parts.primParts st.pNo e } }

/-- A logical partition has been found. -/
def ScanState.addLogic (st : ScanState) (e : Extent) : ScanState :=
  { st with
    lNo := st.lNo + 1
    parts := { st.parts with logicParts := update st.parts.logicParts st.lNo e } }

/-- The loop of `partition_scan` over the entries of the table in sector `extLba`; `scan` is the
recursive call. -/
def scanTable (scan : ℕ → ScanState → Outcome ScanState) (extLba : ℕ) :
    List PartitionTableEntry → ScanState → Outcome ScanState
  | [], st => return st
  | p :: ps, st => do
    if p.Extended then
      let st ←
        if st.extLbaBase ≠ 0 then scan ((p.startLba + st.extLbaBase) % 4294967296) st
        else scan p.startLba { st with extLbaBase := p.startLba }
      scanTable scan extLba ps st
    else if p.fsType ≠ 0 then
      let e : Extent := ⟨(extLba + p.startLba) % 4294967296, p.secCnt⟩
      if extLba = 0 then
        let st := st.addPrim e
        assert (st.pNo < 4)
        scanTable scan extLba ps st
      else
        access (st.lNo < 8)
        let st := st.addLogic e
        if 8 ≤ st.lNo then
          return st
        scanTable scan extLba ps st
    else
      scanTable scan extLba ps st

/-- `partition_scan`. The counter `fuel` bounds the depth of the recursion. -/
def partitionScan (hd : Disk) : (fuel extLba : ℕ) → ScanState → Outcome ScanState
  | 0, _, _ => throw .hang
  | fuel + 1, extLba, st => do
    assert (extLba ≤ maxLba)
    scanTable (partitionScan hd fuel) extLba (partitionTable (ideRead hd extLba)) st

/-- The loop of `ide_init` over the channels, each with its second drive. A drive has `maxLba + 1`
sectors, so a deeper recursion does not end. -/
def ideInit : List Disk → (extLbaBase : ℕ) → Outcome (List DiskParts)
  | [], _ => return []
  | hd :: hds, extLbaBase => do
    let st ← partitionScan hd (maxLba + 2) 0 ⟨extLbaBase, 0, 0, .zero⟩
    return st.parts :: (← ideInit hds st.extLbaBase)

/-! ## One entry of a table -/

/-- The partition of an entry of the table in sector `lba`. -/
def extentAt (lba : ℕ) (p : PartitionTableEntry) : Extent :=
  ⟨(lba + p.startLba) % 4294967296, p.secCnt⟩

/-- The sector of the table that an entry links to. -/
def linkLba (base : ℕ) (p : PartitionTableEntry) : ℕ := (p.startLba + base) % 4294967296

section Entry

variable {scan : ℕ → ScanState → Outcome ScanState} {lba : ℕ} {p : PartitionTableEntry}
  {ps : List PartitionTableEntry} {st : ScanState}

theorem not_extended_of_empty (hp : p.fsType = 0) : ¬ p.Extended := fun h =>
  absurd (hp.symm.trans h) (by decide)

theorem scanTable_empty (hp : p.fsType = 0) :
    scanTable scan lba (p :: ps) st = scanTable scan lba ps st := by
  rw [scanTable, if_neg (not_extended_of_empty hp), if_neg (not_not.2 hp)]

theorem scanTable_link (hp : p.Extended) (hbase : st.extLbaBase ≠ 0) :
    scanTable scan lba (p :: ps) st =
      scan (linkLba st.extLbaBase p) st >>= scanTable scan lba ps := by
  rw [scanTable, if_pos hp, if_pos hbase]
  rfl

/-- The first extended entry sets the base. -/
theorem scanTable_first (hp : p.Extended) (hbase : st.extLbaBase = 0) (lba : ℕ) :
    scanTable scan lba (p :: ps) st =
      scan p.startLba { st with extLbaBase := p.startLba } >>= scanTable scan lba ps := by
  rw [scanTable, if_pos hp, if_neg (not_not.2 hbase)]

theorem scanTable_logic (hp : p.Plain) (hlba : lba ≠ 0) :
    scanTable scan lba (p :: ps) st = (access (st.lNo < 8) >>= fun _ =>
      if 8 ≤ st.lNo + 1 then .ok (st.addLogic (extentAt lba p))
      else scanTable scan lba ps (st.addLogic (extentAt lba p))) := by
  have hext : ¬ p.Extended := hp.1
  rw [scanTable, if_neg hext, if_pos hp.2, if_neg hlba]
  rfl

theorem scanTable_prim (hp : p.Plain) : scanTable scan 0 (p :: ps) st =
    (assert (st.pNo + 1 < 4) >>= fun _ => scanTable scan 0 ps (st.addPrim (extentAt 0 p))) := by
  have hext : ¬ p.Extended := hp.1
  rw [scanTable, if_neg hext, if_pos hp.2, if_pos rfl]
  rfl

end Entry

/-! ## Well-formed tables -/

/-- A chain of at most `n` tables from sector `lba` on, each with at most one logical partition and
one link, which counts from `base`. -/
inductive Chain (hd : Disk) (base : ℕ) : (lba n : ℕ) → Prop
  | table {lba n : ℕ} (hpos : 0 < lba) (hle : lba ≤ maxLba)
      (hplain : (partitionTable (hd lba)).countP (·.Plain) ≤ 1)
      (hext : (partitionTable (hd lba)).countP (·.Extended) ≤ 1)
      (hnext : ∀ p ∈ partitionTable (hd lba), p.Extended →
        Chain hd base ((p.startLba + base) % 4294967296) n) : Chain hd base lba (n + 1)

/-- At most three primary partitions, and one extended partition with a chain of at most seven
logical ones. -/
structure TablesOk (hd : Disk) : Prop where
  plain : (partitionTable (hd 0)).countP (·.Plain) ≤ 3
  ext : (partitionTable (hd 0)).countP (·.Extended) ≤ 1
  chain : ∀ p ∈ partitionTable (hd 0), p.Extended → Chain hd p.startLba p.startLba 7

/-- The disk has an extended partition. -/
def HasExtended (hd : Disk) : Prop := ∃ p ∈ partitionTable (hd 0), p.Extended

/-! ## Scanning well-formed tables -/

/-- The scan of a table in an extended partition: at most `n` more logical partitions. -/
structure Scanned (st st' : ScanState) (n : ℕ) : Prop where
  extLbaBase : st'.extLbaBase = st.extLbaBase
  pNo : st'.pNo = st.pNo
  lNo : st'.lNo ≤ st.lNo + n

section Scan

variable {hd : Disk} {scan : ℕ → ScanState → Outcome ScanState} {base lba n : ℕ}

/-- The loop over a table in an extended partition. -/
theorem exists_scanTable (hlba : lba ≠ 0) (hbase : base ≠ 0) {ps : List PartitionTableEntry} :
    ∀ {st : ScanState}, (∀ p ∈ ps, p.Extended → ∀ st : ScanState, st.extLbaBase = base →
      st.lNo + n ≤ 7 → ∃ st', scan ((p.startLba + base) % 4294967296) st = .ok st' ∧
        Scanned st st' n) → st.extLbaBase = base →
    st.lNo + (ps.countP (·.Plain) + n * ps.countP (·.Extended)) ≤ 7 →
    ∃ st', scanTable scan lba ps st = .ok st' ∧
      Scanned st st' (ps.countP (·.Plain) + n * ps.countP (·.Extended)) := by
  induction ps with
  | nil => exact fun {st} _ _ _ => ⟨st, rfl, rfl, rfl, Nat.le_add_right _ _⟩
  | cons p ps ih =>
    intro st hscan hst hle
    have hscan' := fun q hq => hscan q (List.mem_cons_of_mem _ hq)
    rcases p.kind with ⟨hp, hne⟩ | ⟨hp, hne, hne'⟩ | ⟨hp, hne⟩
    · simp only [List.countP_cons, decide_eq_true_eq, hp, hne, if_true, if_false, Nat.add_zero,
        Nat.mul_add, Nat.mul_one] at hle ⊢
      obtain ⟨st₁, hrun, hs⟩ := hscan p List.mem_cons_self hp st hst (by omega)
      have hlNo := hs.lNo
      obtain ⟨st₂, hrun₂, hs₂⟩ := ih hscan' (hs.extLbaBase.trans hst) (by omega)
      have hlNo₂ := hs₂.lNo
      refine ⟨st₂, ?_, hs₂.extLbaBase.trans hs.extLbaBase, hs₂.pNo.trans hs.pNo, by omega⟩
      rw [scanTable_link hp (by rwa [hst]), hst]
      exact bind_eq_ok.2 ⟨st₁, hrun, hrun₂⟩
    · simp only [List.countP_cons, decide_eq_true_eq, hne, hne', if_false, Nat.add_zero] at hle ⊢
      rw [scanTable_empty hp]
      exact ih hscan' hst hle
    · simp only [List.countP_cons, decide_eq_true_eq, hp, hne, if_true, if_false, Nat.add_zero]
        at hle ⊢
      obtain ⟨st₂, hrun₂, hs₂⟩ := @ih (st.addLogic (extentAt lba p)) hscan' hst
        (by simp only [ScanState.addLogic]; omega)
      have hlNo₂ : st₂.lNo ≤ st.lNo + 1 + _ := hs₂.lNo
      refine ⟨st₂, ?_, hs₂.extLbaBase, hs₂.pNo, by omega⟩
      rw [scanTable_logic hp hlba, access, if_pos (by omega), ok_bind, if_neg (by omega), hrun₂]

/-- A chain is scanned to its end. -/
theorem Chain.exists_scan (h : Chain hd base lba n) (hbase : base ≠ 0) : ∀ {fuel : ℕ}
    {st : ScanState}, n ≤ fuel → st.extLbaBase = base → st.lNo + n ≤ 7 →
    ∃ st', partitionScan hd fuel lba st = .ok st' ∧ Scanned st st' n := by
  induction h with
  | @table lba n hpos hle hplain hext _ ih =>
    intro fuel st hfuel hst hlNo
    obtain ⟨fuel, rfl⟩ := Nat.exists_eq_succ_of_ne_zero (show fuel ≠ 0 by omega)
    have hcount : (partitionTable (hd lba)).countP (·.Plain) +
        n * (partitionTable (hd lba)).countP (·.Extended) ≤ 1 + n := by
      have := Nat.mul_le_mul_left n hext
      omega
    obtain ⟨st', hrun, hs⟩ := @exists_scanTable (partitionScan hd fuel) base lba n hpos.ne'
      hbase _ st (fun p hp hpe st hst hl => ih p hp hpe (by omega) hst hl) hst (by omega)
    have hlNo' := hs.lNo
    refine ⟨st', ?_, hs.extLbaBase, hs.pNo, by omega⟩
    rw [partitionScan, assert, if_pos hle, ok_bind]
    exact hrun

/-- The loop over the table in the first sector. -/
theorem exists_scanTable_first {ps : List PartitionTableEntry} : ∀ {st : ScanState},
    (∀ p ∈ ps, p.Extended → ∀ st : ScanState, st.extLbaBase = p.startLba → st.lNo + 7 ≤ 7 →
      ∃ st', scan p.startLba st = .ok st' ∧ Scanned st st' 7) →
    st.pNo + ps.countP (·.Plain) ≤ 3 → st.lNo + 7 * ps.countP (·.Extended) ≤ 7 →
    (0 < ps.countP (·.Extended) → st.extLbaBase = 0) →
    ∃ st', scanTable scan 0 ps st = .ok st' ∧
      (ps.countP (·.Extended) = 0 → st'.extLbaBase = st.extLbaBase) := by
  induction ps with
  | nil => exact fun {st} _ _ _ _ => ⟨st, rfl, fun _ => rfl⟩
  | cons p ps ih =>
    intro st hscan hpNo hlNo hbase
    have hscan' := fun q hq => hscan q (List.mem_cons_of_mem _ hq)
    rcases p.kind with ⟨hp, hne⟩ | ⟨hp, hne, hne'⟩ | ⟨hp, hne⟩
    · simp only [List.countP_cons, decide_eq_true_eq, hp, hne, if_true, if_false, Nat.add_zero]
        at hpNo hlNo hbase ⊢
      obtain ⟨st₁, hrun, hs⟩ := hscan p List.mem_cons_self hp
        { st with extLbaBase := p.startLba } rfl (by simp only; omega)
      have hlNo₁ : st₁.lNo ≤ st.lNo + 7 := hs.lNo
      obtain ⟨st₂, hrun₂, -⟩ := @ih st₁ hscan' (by rwa [hs.pNo]) (by omega) fun hpos => by omega
      refine ⟨st₂, ?_, fun h => by omega⟩
      rw [scanTable_first hp (hbase (by omega))]
      exact bind_eq_ok.2 ⟨st₁, hrun, hrun₂⟩
    · simp only [List.countP_cons, decide_eq_true_eq, hne, hne', if_false,
        Nat.add_zero] at hpNo hlNo hbase ⊢
      rw [scanTable_empty hp]
      exact ih hscan' hpNo hlNo hbase
    · simp only [List.countP_cons, decide_eq_true_eq, hp, hne, if_true, if_false, Nat.add_zero]
        at hpNo hlNo hbase ⊢
      obtain ⟨st₂, hrun₂, hb⟩ := @ih (st.addPrim (extentAt 0 p)) hscan'
        (by simp only [ScanState.addPrim]; omega) hlNo hbase
      refine ⟨st₂, ?_, hb⟩
      rw [scanTable_prim hp]
      exact bind_eq_ok.2 ⟨(), assert_eq_ok.2 (by omega), hrun₂⟩

/-- **A well-formed drive is scanned to its end**, when it is the first with an extended partition.
The base is not touched if it has none. -/
theorem TablesOk.exists_scan (h : TablesOk hd) {st : ScanState} (hpNo : st.pNo = 0)
    (hlNo : st.lNo = 0) (hbase : st.extLbaBase = 0) :
    ∃ st', partitionScan hd (maxLba + 2) 0 st = .ok st' ∧
      (¬ HasExtended hd → st'.extLbaBase = 0) := by
  have hplain := h.plain
  have hext := h.ext
  obtain ⟨st', hrun, hb⟩ := @exists_scanTable_first (partitionScan hd (maxLba + 1))
    (partitionTable (hd 0)) st (fun p hp hpe st hst hl => by
      have hchain := h.chain p hp hpe
      refine hchain.exists_scan ?_ (by decide) hst hl
      cases hchain with
      | table hpos => exact hpos.ne')
    (by omega) (by omega) (fun _ => hbase)
  refine ⟨st', ?_, fun hne => ?_⟩
  · rw [show maxLba + 2 = maxLba + 1 + 1 from rfl, partitionScan, assert, if_pos (Nat.zero_le _),
      ok_bind]
    exact hrun
  · rw [hb, hbase]
    refine List.countP_eq_zero.2 fun p hp hpe => hne ⟨p, hp, ?_⟩
    exact of_decide_eq_true hpe

/-! ## The base of another drive -/

/-- A property of the variables that every change keeps: the base is set when it is 0, and the
number of primary partitions has been checked. -/
structure ScanKeeps (P : ScanState → Prop) : Prop where
  base : ∀ st lba, st.extLbaBase = 0 → P st → P { st with extLbaBase := lba }
  prim : ∀ st e, st.pNo + 1 < 4 → P st → P (st.addPrim e)
  logic : ∀ st e, P st → P (st.addLogic e)

theorem ScanKeeps.scanTable {P : ScanState → Prop} (h : ScanKeeps P)
    (hscan : ∀ lba st st', P st → scan lba st = .ok st' → P st') {ps : List PartitionTableEntry} :
    ∀ {st st' : ScanState}, P st → scanTable scan lba ps st = .ok st' → P st' := by
  induction ps with
  | nil => exact fun hst hrun => pure_eq_ok.1 hrun ▸ hst
  | cons p ps ih =>
    intro st st' hst hrun
    rcases p.kind with ⟨hp, -⟩ | ⟨hp, -, -⟩ | ⟨hp, -⟩
    · by_cases hbase : st.extLbaBase = 0
      · rw [scanTable_first hp hbase] at hrun
        obtain ⟨st₁, hrun₁, hrun⟩ := bind_eq_ok.1 hrun
        exact ih (hscan _ _ _ (h.base st _ hbase hst) hrun₁) hrun
      · rw [scanTable_link hp hbase] at hrun
        obtain ⟨st₁, hrun₁, hrun⟩ := bind_eq_ok.1 hrun
        exact ih (hscan _ _ _ hst hrun₁) hrun
    · rw [scanTable_empty hp] at hrun
      exact ih hst hrun
    by_cases hlba : lba = 0
    · subst hlba
      rw [scanTable_prim hp] at hrun
      obtain ⟨_, hlt, hrun⟩ := bind_eq_ok.1 hrun
      exact ih (h.prim st _ (assert_eq_ok.1 hlt) hst) hrun
    · rw [scanTable_logic hp hlba] at hrun
      obtain ⟨_, -, hrun⟩ := bind_eq_ok.1 hrun
      have hlogic := h.logic st (extentAt lba p) hst
      split at hrun
      · exact Except.ok.inj hrun ▸ hlogic
      · exact ih hlogic hrun

/-- **What every change keeps, the scan keeps.** -/
theorem ScanKeeps.partitionScan {P : ScanState → Prop} (h : ScanKeeps P) {fuel : ℕ} :
    ∀ {lba : ℕ} {st st' : ScanState}, P st → partitionScan hd fuel lba st = .ok st' → P st' := by
  induction fuel with
  | zero => exact fun _ hrun => nomatch hrun
  | succ fuel ih =>
    intro lba st st' hst hrun
    obtain ⟨_, -, hrun⟩ := bind_eq_ok.1 hrun
    exact h.scanTable (fun _ _ _ => ih) hst hrun

/-- A base that is set is not set again. -/
theorem scanKeeps_base (hbase : base ≠ 0) : ScanKeeps (·.extLbaBase = base) :=
  ⟨fun _ _ h0 hst => absurd (hst.symm.trans h0) hbase, fun _ _ _ hst => hst, fun _ _ hst => hst⟩

/-- The first extended entry of the first drive sets the base. -/
theorem exists_base_of_scanTable {fuel : ℕ} {ps : List PartitionTableEntry} :
    ∀ {st st' : ScanState}, st.extLbaBase = 0 → (∀ p ∈ ps, p.Extended → p.startLba ≠ 0) →
    (∃ p ∈ ps, p.Extended) → scanTable (partitionScan hd fuel) 0 ps st = .ok st' →
    ∃ p ∈ ps, p.Extended ∧ st'.extLbaBase = p.startLba := by
  induction ps with
  | nil =>
    rintro st st' - - ⟨p, hp, -⟩ -
    cases hp
  | cons p ps ih =>
    intro st st' h0 hne hex hrun
    have hrest : ¬ p.Extended → ∀ {st₁ : ScanState}, st₁.extLbaBase = 0 →
        scanTable (partitionScan hd fuel) 0 ps st₁ = .ok st' →
        ∃ q ∈ p :: ps, q.Extended ∧ st'.extLbaBase = q.startLba := fun hext st₁ h₁ hrun₁ => by
      obtain ⟨q, hq, hqs⟩ := ih h₁ (fun q hq => hne q (List.mem_cons_of_mem _ hq))
        (by simpa [hext] using hex) hrun₁
      exact ⟨q, List.mem_cons_of_mem _ hq, hqs⟩
    rcases p.kind with ⟨hp, -⟩ | ⟨hp, hext, -⟩ | ⟨hp, hext⟩
    · have hkeeps := scanKeeps_base (hne p List.mem_cons_self hp)
      rw [scanTable_first hp h0] at hrun
      obtain ⟨st₁, hrun₁, hrun⟩ := bind_eq_ok.1 hrun
      refine ⟨p, List.mem_cons_self, hp, ?_⟩
      exact hkeeps.scanTable (fun _ _ _ => hkeeps.partitionScan)
        (hkeeps.partitionScan rfl hrun₁) hrun
    · rw [scanTable_empty hp] at hrun
      exact hrest hext h0 hrun
    · rw [scanTable_prim hp] at hrun
      obtain ⟨_, -, hrun⟩ := bind_eq_ok.1 hrun
      refine hrest hext ?_ hrun
      exact h0

theorem TablesOk.startLba_pos (h : TablesOk hd) {p : PartitionTableEntry}
    (hp : p ∈ partitionTable (hd 0)) (hpe : p.Extended) : 0 < p.startLba ∧ p.startLba ≤ maxLba := by
  cases h.chain p hp hpe with
  | table hpos hle => exact ⟨hpos, hle⟩

theorem TablesOk.extended_unique (h : TablesOk hd) {p q : PartitionTableEntry}
    (hp : p ∈ partitionTable (hd 0)) (hpe : p.Extended) (hq : q ∈ partitionTable (hd 0))
    (hqe : q.Extended) : p = q := by
  have hlen := h.ext
  rw [List.countP_eq_length_filter] at hlen
  have hmem : ∀ {r}, r ∈ partitionTable (hd 0) → r.Extended →
      r ∈ (partitionTable (hd 0)).filter (·.Extended) := fun hr hre =>
    List.mem_filter.2 ⟨hr, decide_eq_true hre⟩
  obtain ⟨a, ha⟩ := List.length_eq_one_iff.1
    (hlen.antisymm (List.length_pos_of_mem (hmem hp hpe)))
  rw [ha] at hmem
  rw [List.mem_singleton.1 (hmem hp hpe), List.mem_singleton.1 (hmem hq hqe)]

/-- The base that a well-formed first drive leaves behind is the start of its extended partition. -/
theorem TablesOk.base_of_scan (h : TablesOk hd) {p : PartitionTableEntry}
    (hp : p ∈ partitionTable (hd 0)) (hpe : p.Extended) {st st' : ScanState}
    (h0 : st.extLbaBase = 0) (hrun : partitionScan hd (maxLba + 2) 0 st = .ok st') :
    st'.extLbaBase = p.startLba := by
  obtain ⟨_, -, hrun⟩ := bind_eq_ok.1 hrun
  obtain ⟨q, hq, hqe, hbase⟩ := exists_base_of_scanTable h0
    (fun p hp hpe => (h.startLba_pos hp hpe).1.ne') ⟨p, hp, hpe⟩ hrun
  rw [hbase, h.extended_unique hq hqe hp hpe]

/-- A table without an extended entry is scanned alike with every base. -/
theorem scanTable_setBase (base : ℕ) {ps : List PartitionTableEntry} :
    ∀ {st st' : ScanState}, (∀ p ∈ ps, ¬ p.Extended) → scanTable scan 0 ps st = .ok st' →
    scanTable scan 0 ps { st with extLbaBase := base } = .ok { st' with extLbaBase := base } := by
  induction ps with
  | nil => exact fun _ hrun => pure_eq_ok.1 hrun ▸ rfl
  | cons p ps ih =>
    intro st st' hne hrun
    have hne' := fun q hq => hne q (List.mem_cons_of_mem _ hq)
    rcases p.kind with ⟨hp, -⟩ | ⟨hp, -, -⟩ | ⟨hp, -⟩
    · exact absurd hp (hne p List.mem_cons_self)
    · rw [scanTable_empty hp] at hrun ⊢
      exact ih hne' hrun
    · rw [scanTable_prim hp] at hrun ⊢
      obtain ⟨u, hlt, hrun⟩ := bind_eq_ok.1 hrun
      exact bind_eq_ok.2 ⟨u, hlt, ih hne' hrun⟩

end Scan

/-! ## Scanning one drive after another -/

/-- A sector whose table has one entry. -/
def entrySector (fsType startLba secCnt : UInt8) : Buf := fun i =>
  if i = 450 then fsType else if i = 454 then startLba else if i = 458 then secCnt else 0

/-- A drive with an extended partition at sector 1, and in it a logical partition at sector 2. -/
def probeDisk : Disk := fun l =>
  if l = 0 then entrySector 5 1 1 else if l = 1 then entrySector 0x83 1 1 else zero

theorem partitionTable_probe_zero :
    partitionTable (probeDisk 0) = ⟨5, 1, 1⟩ :: List.replicate 3 ⟨0, 0, 0⟩ := by decide

theorem partitionTable_probe_one :
    partitionTable (probeDisk 1) = ⟨0x83, 1, 1⟩ :: List.replicate 3 ⟨0, 0, 0⟩ := by decide

theorem partitionTable_zero : partitionTable zero = List.replicate 4 ⟨0, 0, 0⟩ := by decide

theorem probeDisk_tablesOk : TablesOk probeDisk := by
  refine ⟨by rw [partitionTable_probe_zero]; decide, by rw [partitionTable_probe_zero]; decide, ?_⟩
  intro p hp hpe
  rw [partitionTable_probe_zero] at hp
  obtain rfl : p = ⟨5, 1, 1⟩ := by
    rcases List.mem_cons.1 hp with rfl | hp
    · rfl
    · rw [List.eq_of_mem_replicate hp] at hpe
      cases hpe
  refine .table (by decide) (by decide) (by rw [partitionTable_probe_one]; decide)
    (by rw [partitionTable_probe_one]; decide) fun q hq hqe => ?_
  have hnone : ∀ q ∈ partitionTable (probeDisk 1), ¬ q.Extended := by
    rw [partitionTable_probe_one]
    decide
  exact absurd hqe (hnone q hq)

/-- `ide_init` records for the drive `hd`, after `first`, what it records for `hd` alone. -/
def ScansAlike (first hd : Disk) : Prop :=
  ∃ a b, ideInit [hd] 0 = .ok [b] ∧ ideInit [first, hd] 0 = .ok [a, b]

/-- With `base` in `ext_lba_base`, `ide_init` records for the drive what it records with 0. -/
def AlikeFrom (base : ℕ) (hd : Disk) : Prop :=
  ∃ b, ideInit [hd] 0 = .ok [b] ∧ ideInit [hd] base = .ok [b]

theorem ideInit_single {hd : Disk} {base : ℕ} {s : ScanState}
    (h : partitionScan hd (maxLba + 2) 0 ⟨base, 0, 0, .zero⟩ = .ok s) :
    ideInit [hd] base = .ok [s.parts] := by
  rw [ideInit, h]
  rfl

/-- All that a drive sees of the one before is the base. -/
theorem scansAlike_iff_alikeFrom {first hd : Disk} {st : ScanState}
    (hrun : partitionScan first (maxLba + 2) 0 ⟨0, 0, 0, .zero⟩ = .ok st) :
    ScansAlike first hd ↔ AlikeFrom st.extLbaBase hd := by
  constructor
  · rintro ⟨a, b, halone, hafter⟩
    rw [ideInit, hrun, ok_bind] at hafter
    obtain ⟨ls, hrest, hafter⟩ := bind_eq_ok.1 hafter
    obtain ⟨-, rfl⟩ := List.cons.inj (Except.ok.inj hafter)
    exact ⟨b, halone, hrest⟩
  · rintro ⟨b, halone, hafter⟩
    refine ⟨st.parts, b, halone, ?_⟩
    rw [ideInit, hrun, ok_bind, hafter]
    rfl

/-- A drive without an extended partition does not see the one before. -/
theorem TablesOk.alikeFrom {hd : Disk} (h : TablesOk hd) (hext : ¬ HasExtended hd) (base : ℕ) :
    AlikeFrom base hd := by
  obtain ⟨st, hrun, -⟩ := @TablesOk.exists_scan hd h ⟨0, 0, 0, .zero⟩ rfl rfl rfl
  refine ⟨st.parts, ideInit_single hrun, ideInit_single (s := { st with extLbaBase := base }) ?_⟩
  obtain ⟨u, hle, hrun⟩ := bind_eq_ok.1 hrun
  exact bind_eq_ok.2 ⟨u, hle, scanTable_setBase base (fun p hp hpe => hext ⟨p, hp, hpe⟩) hrun⟩

/-- **Discovery per drive.** A well-formed drive is scanned after another as if it were the first,
iff one of the two has no extended partition, or the base of the other happens to lead to the same
partitions. -/
theorem scansAlike_iff {first next : Disk} (h : TablesOk first) (h' : TablesOk next) :
    ScansAlike first next ↔ ¬ HasExtended first ∨ ¬ HasExtended next ∨
      ∃ p ∈ partitionTable (first 0), p.Extended ∧ AlikeFrom p.startLba next := by
  obtain ⟨st, hrun, hbase⟩ := @TablesOk.exists_scan first h ⟨0, 0, 0, .zero⟩ rfl rfl rfl
  rw [scansAlike_iff_alikeFrom hrun]
  constructor
  · intro halike
    by_cases hext : HasExtended first
    · obtain ⟨p, hp, hpe⟩ := hext
      exact .inr (.inr ⟨p, hp, hpe, h.base_of_scan hp hpe rfl hrun ▸ halike⟩)
    · exact .inl hext
  · rintro (hext | hext | ⟨p, hp, hpe, halike⟩)
    · obtain ⟨st', hrun', -⟩ := @TablesOk.exists_scan next h' ⟨0, 0, 0, .zero⟩ rfl rfl rfl
      rw [hbase hext]
      exact ⟨st'.parts, ideInit_single hrun', ideInit_single hrun'⟩
    · exact h'.alikeFrom hext _
    · rwa [h.base_of_scan hp hpe rfl hrun]

/-! ## Formatting what has been found -/

/-- The content of a drive, and the partitions that have been recorded for it. -/
structure Drive where
  disk : Disk
  parts : DiskParts

/-- The partition at place `k`. In `struct disk` the arrays of the four primary and the eight
logical partitions follow each other. -/
def Drive.part (d : Drive) (k : ℕ) : Extent :=
  if k < 4 then d.parts.primParts k else d.parts.logicParts (k - 4)

/-- The partition has the magic number in its super block. -/
def HasMagic (hd : Disk) (e : Extent) : Prop :=
  (SuperBlock.ofBytes (ideRead hd (e.startLba + 1))).magic = 0x19590318

instance (hd : Disk) (e : Extent) : Decidable (HasMagic hd e) := inferInstanceAs (Decidable (_ = _))

/-- The loop of `filesys_init` over the partitions of a drive, entered with `part_idx` and with the
place that `part` points to; `todo` is the number of rounds. -/
def formatParts (pad : Buf) (d : Drive) : (todo partIdx part : ℕ) → Disk → Disk × ℕ
  | 0, partIdx, _, hd => (hd, partIdx)
  | todo + 1, partIdx, part, hd =>
    let part := if partIdx = 4 then 4 else part
    let e := d.part part
    let hd :=
      if e.secCnt ≠ 0 then
        if HasMagic hd e then hd else partitionFormat e.startLba e.secCnt pad hd
      else hd
    formatParts pad d todo (partIdx + 1) (part + 1) hd

/-- The loop of `filesys_init` over the channels, each with its second drive. The source sets
`part_idx` to 0 before it, and not again for the next drive. -/
def searchDrives (pad : Buf) : List Drive → (partIdx : ℕ) → List Drive
  | [], _ => []
  | d :: ds, partIdx =>
    let (hd, partIdx) := formatParts pad d (12 - partIdx) partIdx 0 d.disk
    { d with disk := hd } :: searchDrives pad ds partIdx

/-- Every partition of the drive has the magic number. -/
def AllMagic (d : Drive) : Prop := ∀ k < 12, (d.part k).secCnt ≠ 0 → HasMagic d.disk (d.part k)

/-- Each partition is large enough for the tables of a file system and one data block, and they do
not overlap. -/
structure WellPlaced (d : Drive) : Prop where
  size : ∀ k < 12, (d.part k).secCnt ≠ 0 →
    612 ≤ (d.part k).secCnt ∧ (d.part k).startLba + (d.part k).secCnt ≤ maxLba + 1
  apart : ∀ j < 12, ∀ k < 12, j ≠ k → (d.part j).secCnt ≠ 0 → (d.part k).secCnt ≠ 0 →
    (d.part j).startLba + (d.part j).secCnt ≤ (d.part k).startLba ∨
      (d.part k).startLba + (d.part k).secCnt ≤ (d.part j).startLba

section Format

variable {pad : Buf} {hd : Disk} {startLba secCnt : ℕ}

/-- The super block that `partition_format` writes has the magic number. -/
theorem hasMagic_partitionFormat :
    HasMagic (partitionFormat startLba secCnt pad hd) ⟨startLba, secCnt⟩ := by
  unfold HasMagic
  rw [ideRead, partitionFormat_super]
  have hbytes : ∀ i < 4, window ((formatSuperBlock startLba secCnt).bytes pad) 0 i =
      le32 0x19590318 i := fun i hi => by
    rw [window_apply, SuperBlock.bytes, if_pos (by omega), show (0 + i) / 4 = 0 by omega,
      show (0 + i) % 4 = i by omega]
    rfl
  exact (getLe32_congr hbytes).trans (getLe32_le32_of_lt (by decide))

/-- `partition_format` stays inside the partition. -/
theorem partitionFormat_outside (hsize : 612 ≤ secCnt) (hle : startLba + secCnt ≤ maxLba + 1)
    {l : ℕ} (hl : l < startLba ∨ startLba + secCnt ≤ l) :
    partitionFormat startLba secCnt pad hd l = hd l := by
  have hmax : maxLba + 1 = 163840 := by decide
  have hsects : 611 + divRoundUp (blockBitmapBitLen secCnt) 4096 < secCnt := by
    unfold blockBitmapBitLen freeSects divRoundUp
    omega
  unfold partitionFormat formatSuperBlock
  dsimp only
  rw [ideWrite_of_ne (by omega), ideWriteMany_of_notMem (by omega),
    ideWriteMany_of_notMem (by omega), ideWriteMany_of_notMem (by omega), ideWrite_of_ne (by omega)]

end Format

section Drives

variable {pad : Buf} {d : Drive}

/-- Formatting one partition leaves the super blocks of the others alone. -/
theorem WellPlaced.magic_of_format (h : WellPlaced d) {j k : ℕ} (hj : j < 12) (hk : k < 12)
    (hne : j ≠ k) (hjs : (d.part j).secCnt ≠ 0) (hks : (d.part k).secCnt ≠ 0) {hd : Disk}
    (hm : HasMagic hd (d.part j)) :
    HasMagic (partitionFormat (d.part k).startLba (d.part k).secCnt pad hd) (d.part j) := by
  obtain ⟨hsize, hle⟩ := h.size k hk hks
  obtain ⟨hsize', -⟩ := h.size j hj hjs
  have hapart := h.apart j hj k hk hne hjs hks
  unfold HasMagic at hm ⊢
  rwa [ideRead, partitionFormat_outside hsize hle (by omega)]

/-- The loop over the partitions, from place `k` on: those before keep the magic number, and those
that it visits get it. -/
theorem WellPlaced.magic_of_loop (h : WellPlaced d) {todo : ℕ} : ∀ {k : ℕ} {hd : Disk},
    k + todo = 12 → (∀ j < k, (d.part j).secCnt ≠ 0 → HasMagic hd (d.part j)) →
    (formatParts pad d todo k k hd).2 = 12 ∧ ∀ j < 12, (d.part j).secCnt ≠ 0 →
      HasMagic (formatParts pad d todo k k hd).1 (d.part j) := by
  induction todo with
  | zero =>
    intro k hd hk hm
    obtain rfl : k = 12 := hk
    exact ⟨rfl, hm⟩
  | succ todo ih =>
    intro k hd hk hm
    rw [formatParts, show (if k = 4 then 4 else k) = k by split <;> omega]
    refine ih (by omega) fun j hj hjs => ?_
    by_cases hks : (d.part k).secCnt ≠ 0
    · rw [if_pos hks]
      by_cases hjk : j = k
      · subst hjk
        split
        · assumption
        · exact hasMagic_partitionFormat
      · have hmj := hm j (by omega) hjs
        split
        · exact hmj
        · exact h.magic_of_format (by omega) (by omega) hjk hjs hks hmj
    · rw [if_neg hks]
      refine hm j ?_ hjs
      have : j ≠ k := fun hjk => hks (hjk ▸ hjs)
      omega

/-- Once `part_idx` is 12, no drive is visited any more. -/
theorem searchDrives_twelve (ds : List Drive) : searchDrives pad ds 12 = ds := by
  induction ds with
  | nil => rfl
  | cons d ds ih =>
    rw [searchDrives]
    exact congrArg (d :: ·) ih

/-- **Formatting per drive.** After the search of `filesys_init` all partitions have the magic
number, iff those of all drives but the first had it before. -/
theorem allMagic_iff (h : WellPlaced d) (ds : List Drive) :
    (∀ d' ∈ searchDrives pad (d :: ds) 0, AllMagic d') ↔ ∀ d' ∈ ds, AllMagic d' := by
  obtain ⟨hidx, hmagic⟩ := @WellPlaced.magic_of_loop pad d h 12 0 d.disk rfl fun j hj =>
    absurd hj (Nat.not_lt_zero j)
  rw [searchDrives]
  dsimp only
  rw [show 12 - 0 = 12 from rfl, hidx, searchDrives_twelve, List.forall_mem_cons]
  exact and_iff_right hmagic

end Drives

/-- A blank drive with one partition. -/
def blankDrive : Drive where
  disk _ := zero
  parts := { DiskParts.zero with primParts := update (fun _ => ⟨0, 0⟩) 0 ⟨63, 4000⟩ }

theorem blankDrive_part {k : ℕ} (h : (blankDrive.part k).secCnt ≠ 0) : k = 0 := by
  by_contra hk
  refine h ?_
  unfold Drive.part
  split
  · change (update (fun _ => (⟨0, 0⟩ : Extent)) 0 ⟨63, 4000⟩ k).secCnt = 0
    rw [update_of_ne hk]
  · rfl

theorem blankDrive_wellPlaced : WellPlaced blankDrive := by
  refine ⟨fun k _ hs => ?_, fun j _ k _ hne hj hk => ?_⟩
  · obtain rfl := blankDrive_part hs
    decide
  · exact absurd ((blankDrive_part hj).trans (blankDrive_part hk).symm) hne

theorem blankDrive_tablesOk : TablesOk blankDrive.disk ∧ ¬ HasExtended blankDrive.disk := by
  have htable : partitionTable (blankDrive.disk 0) = List.replicate 4 ⟨0, 0, 0⟩ :=
    partitionTable_zero
  have hnone : ∀ p ∈ partitionTable (blankDrive.disk 0), ¬ p.Extended := by
    rw [htable]
    decide
  refine ⟨⟨?_, ?_, fun p hp hpe => absurd hpe (hnone p hp)⟩, fun ⟨p, hp, hpe⟩ => hnone p hp hpe⟩
  · rw [htable]
    decide
  · rw [htable]
    decide

end Gardos.Device
