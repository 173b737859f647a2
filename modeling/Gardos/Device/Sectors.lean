import Gardos.Device.Ide
import Gardos.Fs.FreshVolume

/-!
# Transfers of many sectors (`ide_read` and `ide_write` of `device/ide.c`)

A command moves at most 256 sectors, since the drive has an 8-bit register for their number, in
which 0 stands for 256. `ide_read` and `ide_write` cut a transfer into commands, and pass the number
on in a `uint8_t`: to `select_sector`, which writes it to the register, and to `read_from_sector`
and `write2sector`, which have to move as many bytes as the drive hands over or takes.

`Ata` is the drive as these functions see it: registers, and a data port that counts what is left of
the command. `Moved` says what is different after a part of a transfer, and parts can be put
together (`Moved.trans`). `transfer_exact` is the result for whole transfers. The protocol with the
interrupt handler is the subject of `Gardos.Device.Ide`; here the drive is always ready.
-/

namespace Gardos.Device

open Bytes Outcome Fs Function

/-! ## The drive -/

/-- The registers that `select_disk` and `select_sector` write. -/
structure Registers where
  sectCnt : UInt8
  lbaL : UInt8
  lbaM : UInt8
  lbaH : UInt8
  device : UInt8

namespace Registers

/-- The number of sectors of a command. -/
def count (r : Registers) : ℕ := if r.sectCnt = 0 then 256 else r.sectCnt.toNat

/-- The first sector of a command. -/
def lba (r : Registers) : ℕ :=
  r.lbaL.toNat + 256 * r.lbaM.toNat + 65536 * r.lbaH.toNat + 16777216 * (r.device.toNat % 16)

/-- The second drive of the channel is selected. -/
def slave (r : Registers) : Bool := r.device.toNat / 16 % 2 = 1

end Registers

/-- A channel with its two drives, and the memory. A command is under way as long as `left` bytes of
it are, from byte `pos` of the disk on. The commands that the drives got are in `issued`. -/
structure Ata where
  regs : Registers
  disks : Bool → Disk
  pos : ℕ
  left : ℕ
  issued : List Region
  mem : ℕ → UInt8

/-- A byte of a disk, counted from its start. -/
def diskByte (d : Disk) (k : ℕ) : UInt8 := d (k / 512) (k % 512)

/-- The distance of an address behind another, in 32-bit arithmetic. -/
def bufOffset (buf a : ℕ) : ℕ := (a + (4294967296 - buf)) % 4294967296

namespace Ata

/-- The drive starts a command. It cannot take one while another is under way. -/
def cmdOut (x : Ata) : Outcome Ata := do
  access (x.left = 0)
  return { x with
    pos := 512 * x.regs.lba
    left := 512 * x.regs.count
    issued := x.issued ++ [⟨x.regs.lba, x.regs.count⟩] }

/-- `insw`: words from the data port to memory. -/
def insw (x : Ata) (addr wordCnt : ℕ) : Outcome Ata := do
  access (2 * wordCnt ≤ x.left)
  return { x with
    mem := fun a =>
      if bufOffset addr a < 2 * wordCnt then
        diskByte (x.disks x.regs.slave) (x.pos + bufOffset addr a)
      else x.mem a
    pos := x.pos + 2 * wordCnt
    left := x.left - 2 * wordCnt }

/-- `outsw`: words from memory to the data port. -/
def outsw (x : Ata) (addr wordCnt : ℕ) : Outcome Ata := do
  access (2 * wordCnt ≤ x.left)
  return { x with
    disks := update x.disks x.regs.slave fun l i =>
      if i < 512 ∧ x.pos ≤ 512 * l + i ∧ 512 * l + i < x.pos + 2 * wordCnt then
        x.mem ((addr + (512 * l + i - x.pos)) % 4294967296)
      else x.disks x.regs.slave l i
    pos := x.pos + 2 * wordCnt
    left := x.left - 2 * wordCnt }

/-! ## The driver -/

/-- `BIT_DEV_MBS | BIT_DEV_LBA`, and `BIT_DEV_DEV` for the second drive. -/
def regDevice (devNo : ℕ) : ℕ := 0xa0 ||| 0x40 ||| if devNo = 1 then 0x10 else 0

/-- `select_disk`. -/
def selectDisk (x : Ata) (devNo : ℕ) : Ata :=
  { x with regs := { x.regs with device := .ofNat (regDevice devNo) } }

/-- `select_sector`; `outb` keeps the low byte. -/
def selectSector (x : Ata) (devNo lba secCnt : ℕ) : Outcome Ata := do
  assert (lba ≤ maxLba)
  return { x with
    regs :=
      { sectCnt := .ofNat secCnt
        lbaL := .ofNat lba
        lbaM := .ofNat (lba >>> 8)
        lbaH := .ofNat (lba >>> 16)
        device := .ofNat (regDevice devNo ||| lba >>> 24) } }

/-- `busy_wait`: the drive is ready while a command is under way. -/
def busyWait (x : Ata) : Bool := x.left ≠ 0

/-- `size_in_byte` in `read_from_sector` and `write2sector`. -/
def sizeInByte (secCnt : ℕ) : ℕ := if secCnt = 0 then 256 * 512 else secCnt * 512

/-- `read_from_sector`. -/
def readFromSector (x : Ata) (buf secCnt : ℕ) : Outcome Ata := x.insw buf (sizeInByte secCnt / 2)

/-- `write2sector`. -/
def write2sector (x : Ata) (buf secCnt : ℕ) : Outcome Ata := x.outsw buf (sizeInByte secCnt / 2)

/-- One round of the loop of `ide_read` or `ide_write`. The callees take `secs_op` as a byte. -/
def chunk (op : IdeOp) (x : Ata) (devNo lba buf secsOp : ℕ) : Outcome Ata := do
  let x ← selectSector x devNo lba (secsOp % 256)
  let x ← cmdOut x
  assert (busyWait x)
  match op with
  | .read => readFromSector x buf (secsOp % 256)
  | .write => write2sector x buf (secsOp % 256)

/-- The loop of `ide_read` and `ide_write`. -/
def transferLoop (devNo buf : ℕ) : (fuel : ℕ) → Ata → Transfer → Outcome Ata
  | 0, _, _ => throw .hang
  | fuel + 1, x, c => do
    if c.secsDone < c.secCnt then
      let x ← chunk c.op x devNo ((c.lba + c.secsDone) % 4294967296)
        ((buf + c.secsDone * 512) % 4294967296) c.secsOp
      transferLoop devNo buf fuel x (c.advance c.secsOp)
    else
      return x

def transfer (x : Ata) (devNo buf : ℕ) (c : Transfer) : Outcome Ata := do
  assert (c.lba ≤ maxLba)
  assert (0 < c.secCnt)
  transferLoop devNo buf (c.secCnt + 1) (selectDisk x devNo) c

/-- `ide_read`. -/
def ideRead (x : Ata) (devNo lba buf secCnt : ℕ) : Outcome Ata :=
  transfer x devNo buf ⟨.read, lba, secCnt, 0⟩

/-- `ide_write`. -/
def ideWrite (x : Ata) (devNo lba buf secCnt : ℕ) : Outcome Ata :=
  transfer x devNo buf ⟨.write, lba, secCnt, 0⟩

end Ata

/-! ## Commands in a row -/

/-- Commands of at least one sector and at most `max`, each of which starts where the one before
ends, from `start` to `stop`. -/
def TilesFrom (max : ℕ) : (start stop : ℕ) → List Region → Prop
  | start, stop, [] => start = stop
  | start, stop, c :: cs =>
    c.first = start ∧ 1 ≤ c.count ∧ c.count ≤ max ∧ TilesFrom max (start + c.count) stop cs

theorem TilesFrom.append {max m : ℕ} {cs cs' : List Region} : ∀ {start stop : ℕ},
    TilesFrom max start m cs → TilesFrom max m stop cs' → TilesFrom max start stop (cs ++ cs') := by
  induction cs with
  | nil =>
    rintro start stop rfl h
    exact h
  | cons c cs ih =>
    rintro start stop ⟨hfirst, hpos, hle, hrest⟩ h
    exact ⟨hfirst, hpos, hle, ih hrest h⟩

theorem TilesFrom.consecutive {max stop : ℕ} {cs : List Region} : ∀ {start : ℕ},
    TilesFrom max start stop cs → Consecutive cs := by
  induction cs with
  | nil => exact fun _ => .nil
  | cons c cs ih =>
    rintro start ⟨hfirst, -, -, hrest⟩
    cases cs with
    | nil => exact .singleton c
    | cons d ds => exact .cons_cons (hrest.1.trans (by rw [hfirst])) (ih hrest)

/-! ## One command -/

namespace Ata

variable {x x' x'' : Ata} {op : IdeOp} {devNo lba buf k m n : ℕ}

theorem maxLba_eq : maxLba = 163839 := by decide

theorem regDevice_toNat (devNo : ℕ) : (UInt8.ofNat (regDevice devNo)).toNat % 16 = 0 ∧
    decide ((UInt8.ofNat (regDevice devNo)).toNat / 16 % 2 = 1) = decide (devNo = 1) := by
  unfold regDevice
  by_cases hdev : devNo = 1
  · rw [if_pos hdev, decide_eq_true hdev]
    decide
  · rw [if_neg hdev, decide_eq_false hdev]
    decide

/-- The drive reads the arguments of `select_sector` back from its registers. -/
theorem exists_selectSector (x : Ata) (devNo : ℕ) (hlba : lba ≤ maxLba) (hpos : 1 ≤ n)
    (hle : n ≤ 256) : ∃ r : Registers,
      selectSector x devNo lba (n % 256) = .ok { x with regs := r } ∧
        r.lba = lba ∧ r.count = n ∧ r.slave = decide (devNo = 1) := by
  have hhigh : regDevice devNo ||| lba >>> 24 = regDevice devNo := by
    rw [maxLba_eq] at hlba
    rw [Nat.shiftRight_eq_div_pow, Nat.div_eq_of_lt (by omega), Nat.or_zero]
  obtain ⟨hbits, hslave⟩ := regDevice_toNat devNo
  refine ⟨_, bind_eq_ok.2 ⟨(), assert_eq_ok.2 hlba, rfl⟩, ?_, ?_, ?_⟩
  · rw [maxLba_eq] at hlba
    unfold Registers.lba
    dsimp only
    rw [hhigh, hbits]
    simp only [UInt8.toNat_ofNat', Nat.shiftRight_eq_div_pow]
    omega
  · have htoNat : (UInt8.ofNat (n % 256)).toNat = n % 256 := by
      rw [UInt8.toNat_ofNat']
      omega
    unfold Registers.count
    by_cases hfull : n = 256
    · subst hfull
      rfl
    · rw [if_neg, htoNat]
      · omega
      · intro hzero
        have hmod := congrArg UInt8.toNat hzero
        dsimp only at hmod
        rw [htoNat, UInt8.toNat_zero] at hmod
        omega
  · simp only [Registers.slave, hhigh, hslave]

theorem sizeInByte_eq (hpos : 1 ≤ n) (hle : n ≤ 256) :
    2 * (sizeInByte (n % 256) / 2) = 512 * n := by
  unfold sizeInByte
  split <;> omega

/-- What is different after the sectors from `k` up to `m` of a transfer are moved: the memory if
they are read, the disk if they are written, and the commands that were issued. -/
structure Moved (op : IdeOp) (devNo lba buf k m : ℕ) (x x' : Ata) : Prop where
  left : x'.left = 0
  mem : ∀ a < 4294967296, x'.mem a =
    if op = .read ∧ 512 * k ≤ bufOffset buf a ∧ bufOffset buf a < 512 * m then
      diskByte (x.disks (decide (devNo = 1))) (512 * lba + bufOffset buf a)
    else x.mem a
  disks : ∀ dev l i, x'.disks dev l i =
    if op = .write ∧ dev = decide (devNo = 1) ∧ i < 512 ∧ lba + k ≤ l ∧ l < lba + m then
      x.mem ((buf + (512 * (l - lba) + i)) % 4294967296)
    else x.disks dev l i
  issued : ∃ cs, x'.issued = x.issued ++ cs ∧ TilesFrom 256 (lba + k) (lba + m) cs

theorem bufOffset_lt_iff (hbuf : buf < 4294967296) (a : ℕ)
    (hend : 512 * (k + n) ≤ 4294967296) :
    bufOffset ((buf + k * 512) % 4294967296) a < 512 * n ↔
      512 * k ≤ bufOffset buf a ∧ bufOffset buf a < 512 * (k + n) := by
  unfold bufOffset
  omega

theorem bufOffset_add (hbuf : buf < 4294967296) {a : ℕ}
    (hend : 512 * (k + n) ≤ 4294967296)
    (hlt : bufOffset ((buf + k * 512) % 4294967296) a < 512 * n) :
    512 * k + bufOffset ((buf + k * 512) % 4294967296) a = bufOffset buf a := by
  unfold bufOffset at hlt ⊢
  omega

/-- The state in which the drive has a command for `n` sectors. -/
structure Started (devNo lba n : ℕ) (x y : Ata) : Prop where
  slave : y.regs.slave = decide (devNo = 1)
  pos : y.pos = 512 * lba
  left : y.left = 512 * n
  disks : y.disks = x.disks
  mem : y.mem = x.mem
  issued : y.issued = x.issued ++ [⟨lba, n⟩]

theorem exists_started (hleft : x.left = 0) (hlba : lba ≤ maxLba) (hpos : 1 ≤ n) (hle : n ≤ 256) :
    ∃ y, Started devNo lba n x y ∧ ∀ buf, chunk op x devNo lba buf n =
      match op with
      | .read => readFromSector y buf (n % 256)
      | .write => write2sector y buf (n % 256) := by
  obtain ⟨r, hselect, hrlba, hcount, hslave⟩ := exists_selectSector x devNo hlba hpos hle
  set y : Ata := { x with
    regs := r
    pos := 512 * r.lba
    left := 512 * r.count
    issued := x.issued ++ [⟨r.lba, r.count⟩] }
  refine ⟨y, ⟨hslave, congrArg (512 * ·) hrlba, congrArg (512 * ·) hcount, rfl, rfl, ?_⟩,
    fun buf => ?_⟩
  · change x.issued ++ [⟨r.lba, r.count⟩] = _
    rw [hrlba, hcount]
  · have hbusy : busyWait y = true := by
      refine decide_eq_true ?_
      change 512 * r.count ≠ 0
      omega
    have hcmd : cmdOut { x with regs := r } = .ok y :=
      bind_eq_ok.2 ⟨(), access_eq_ok.2 hleft, rfl⟩
    unfold chunk
    rw [hselect, ok_bind, hcmd, ok_bind, assert, if_pos hbusy, ok_bind]

theorem Started.read {y : Ata} (h : Started devNo (lba + k) n x y) (hpos : 1 ≤ n) (hle : n ≤ 256)
    (hbuf : buf < 4294967296) (hend : 512 * (k + n) ≤ 4294967296) :
    ∃ x', readFromSector y ((buf + k * 512) % 4294967296) (n % 256) = .ok x' ∧
      Moved .read devNo lba buf k (k + n) x x' := by
  refine ⟨_, bind_eq_ok.2 ⟨(), access_eq_ok.2 ?_, rfl⟩, ?_, fun a _ => ?_, fun dev l i => ?_,
    _, h.issued, rfl, hpos, hle, (Nat.add_assoc ..)⟩
  · rw [sizeInByte_eq hpos hle, h.left]
  · change y.left - _ = 0
    rw [sizeInByte_eq hpos hle, h.left, Nat.sub_self]
  · dsimp only
    rw [sizeInByte_eq hpos hle, h.disks, h.slave, h.pos, h.mem]
    by_cases hlt : bufOffset ((buf + k * 512) % 4294967296) a < 512 * n
    · rw [if_pos hlt, if_pos ⟨rfl, (bufOffset_lt_iff hbuf a hend).1 hlt⟩,
        ← bufOffset_add hbuf hend hlt, Nat.mul_add, Nat.add_assoc]
    · rw [if_neg hlt, if_neg fun hc => hlt ((bufOffset_lt_iff hbuf a hend).2 hc.2)]
  · rw [if_neg fun hc => nomatch hc.1]
    exact congrFun (congrFun (congrFun h.disks dev) l) i

theorem Started.write {y : Ata} (h : Started devNo (lba + k) n x y) (hpos : 1 ≤ n) (hle : n ≤ 256) :
    ∃ x', write2sector y ((buf + k * 512) % 4294967296) (n % 256) = .ok x' ∧
      Moved .write devNo lba buf k (k + n) x x' := by
  refine ⟨_, bind_eq_ok.2 ⟨(), access_eq_ok.2 ?_, rfl⟩, ?_, fun a _ => ?_, fun dev l i => ?_,
    _, h.issued, rfl, hpos, hle, (Nat.add_assoc ..)⟩
  · rw [sizeInByte_eq hpos hle, h.left]
  · change y.left - _ = 0
    rw [sizeInByte_eq hpos hle, h.left, Nat.sub_self]
  · rw [if_neg fun hc => nomatch hc.1]
    exact congrFun h.mem a
  · dsimp only
    rw [sizeInByte_eq hpos hle, h.disks, h.slave, h.pos, h.mem]
    by_cases hdev : dev = decide (devNo = 1)
    · subst hdev
      rw [update_self]
      by_cases hin : i < 512 ∧ lba + k ≤ l ∧ l < lba + (k + n)
      · rw [if_pos (by omega), if_pos ⟨rfl, rfl, hin⟩, Nat.mod_add_mod]
        congr 2
        omega
      · rw [if_neg (by omega), if_neg fun hc => hin hc.2.2]
    · rw [update_of_ne hdev, if_neg fun hc => hdev hc.2.1]

/-- **One command moves its sectors**, and the drive is done when it has. -/
theorem exists_chunk (hleft : x.left = 0) (hpos : 1 ≤ n) (hle : n ≤ 256)
    (hbuf : buf < 4294967296) (hend : lba + (k + n) ≤ maxLba + 1) :
    ∃ x', chunk op x devNo ((lba + k) % 4294967296) ((buf + k * 512) % 4294967296) n = .ok x' ∧
      Moved op devNo lba buf k (k + n) x x' := by
  rw [maxLba_eq] at hend
  rw [Nat.mod_eq_of_lt (show lba + k < 4294967296 by omega)]
  obtain ⟨y, hstarted, hchunk⟩ := @exists_started x op devNo (lba + k) n hleft
    (by rw [maxLba_eq]; omega) hpos hle
  rw [hchunk]
  cases op with
  | read => exact hstarted.read hpos hle hbuf (by omega)
  | write => exact hstarted.write hpos hle

/-! ## Whole transfers -/

theorem Moved.refl (hleft : x.left = 0) : Moved op devNo lba buf k k x x := by
  refine ⟨hleft, fun a _ => ?_, fun dev l i => ?_, [], (List.append_nil _).symm, rfl⟩
  · rw [if_neg (by omega)]
  · rw [if_neg (by omega)]

/-- A part of a transfer, and then the next. -/
theorem Moved.trans (h : Moved op devNo lba buf k m x x') (h' : Moved op devNo lba buf m n x' x'')
    (hkm : k ≤ m) (hmn : m ≤ n) : Moved op devNo lba buf k n x x'' := by
  obtain ⟨cs, hissued, htiles⟩ := h.issued
  obtain ⟨cs', hissued', htiles'⟩ := h'.issued
  refine ⟨h'.left, fun a ha => ?_, fun dev l i => ?_, cs ++ cs', ?_, htiles.append htiles'⟩
  · rw [h'.mem a ha]
    by_cases hop : op = .read
    · -- reading leaves the disks alone
      have hdisks : x'.disks = x.disks := by
        funext dev l i
        rw [h.disks dev l i, if_neg fun hc => by rw [hop] at hc; exact nomatch hc.1]
      rw [hdisks, h.mem a ha]
      simp only [hop, true_and]
      split_ifs <;> first | rfl | omega
    · rw [if_neg fun hc => hop hc.1, if_neg fun hc => hop hc.1, h.mem a ha,
        if_neg fun hc => hop hc.1]
  · rw [h'.disks dev l i]
    by_cases hop : op = .write
    · -- and writing the memory
      have hmem : ∀ a < 4294967296, x'.mem a = x.mem a := fun a ha => by
        rw [h.mem a ha, if_neg fun hc => by rw [hop] at hc; exact nomatch hc.1]
      rw [hmem _ (Nat.mod_lt _ (by decide)), h.disks dev l i]
      by_cases hdev : dev = decide (devNo = 1)
      · simp only [hop, hdev, true_and]
        split_ifs <;> first | rfl | omega
      · rw [if_neg fun hc => hdev hc.2.1, if_neg fun hc => hdev hc.2.1,
          if_neg fun hc => hdev hc.2.1]
    · rw [if_neg fun hc => hop hc.1, if_neg fun hc => hop hc.1, h.disks dev l i,
        if_neg fun hc => hop hc.1]
  · rw [hissued', hissued, List.append_assoc]

theorem secsOp_eq {c : Transfer} (hcnt : c.secCnt ≤ maxLba + 1) (hdone : c.secsDone < c.secCnt) :
    c.secsOp = min 256 (c.secCnt - c.secsDone) := by
  rw [maxLba_eq] at hcnt
  unfold Transfer.secsOp
  split <;> omega

/-- The loop moves what is left of the transfer, within as many rounds as there are sectors. -/
theorem exists_transferLoop {fuel : ℕ} (hbuf : buf < 4294967296) : ∀ {x : Ata} {c : Transfer},
    x.left = 0 → c.secsDone ≤ c.secCnt → c.lba + c.secCnt ≤ maxLba + 1 →
    c.secCnt - c.secsDone < fuel →
    ∃ x', transferLoop devNo buf fuel x c = .ok x' ∧
      Moved c.op devNo c.lba buf c.secsDone c.secCnt x x' := by
  induction fuel with
  | zero => exact fun _ _ _ hfuel => absurd hfuel (Nat.not_lt_zero _)
  | succ fuel ih =>
    intro x c hleft hdone hend hfuel
    rw [transferLoop]
    by_cases hmore : c.secsDone < c.secCnt
    · rw [if_pos hmore]
      have hop := secsOp_eq (by omega) hmore
      obtain ⟨x₁, hchunk, hmoved⟩ := @exists_chunk x c.op devNo c.lba buf c.secsDone c.secsOp hleft
        (by omega) (by omega) hbuf (by omega)
      have hadvance : c.advance c.secsOp = { c with secsDone := c.secsDone + c.secsOp } := by
        rw [maxLba_eq] at hend
        unfold Transfer.advance
        rw [Nat.mod_eq_of_lt (by omega)]
      rw [hchunk, ok_bind, hadvance]
      obtain ⟨x₂, hloop, hrest⟩ := @ih x₁ { c with secsDone := c.secsDone + c.secsOp } hmoved.left
        (by dsimp only; omega) hend (by dsimp only; omega)
      exact ⟨x₂, hloop, hmoved.trans hrest (by omega) (by omega)⟩
    · rw [if_neg hmore]
      obtain heq : c.secsDone = c.secCnt := by omega
      refine ⟨x, rfl, ?_⟩
      rw [heq]
      exact .refl hleft

theorem exists_transfer (hleft : x.left = 0) (hbuf : buf < 4294967296) {secCnt : ℕ}
    (hpos : 1 ≤ secCnt) (hend : lba + secCnt - 1 ≤ maxLba) (op : IdeOp) :
    ∃ x', transfer x devNo buf ⟨op, lba, secCnt, 0⟩ = .ok x' ∧
      Moved op devNo lba buf 0 secCnt x x' := by
  obtain ⟨x', hloop, hmoved⟩ := @exists_transferLoop devNo buf (secCnt + 1) hbuf
    (selectDisk x devNo) ⟨op, lba, secCnt, 0⟩ hleft (Nat.zero_le _) (by dsimp only; omega)
    (by dsimp only; omega)
  refine ⟨x', ?_, hmoved.left, hmoved.mem, hmoved.disks, hmoved.issued⟩
  exact bind_eq_ok.2 ⟨(), assert_eq_ok.2 (by dsimp only; omega),
    bind_eq_ok.2 ⟨(), assert_eq_ok.2 hpos, hloop⟩⟩

/-- The commands that a transfer has issued: none is empty or larger than 256 sectors, each starts
where the one before ends, and no two overlap. -/
def IssuedExact (lba secCnt : ℕ) (x x' : Ata) : Prop :=
  ∃ cs, x'.issued = x.issued ++ cs ∧ TilesFrom 256 lba (lba + secCnt) cs ∧
    cs.Pairwise fun a b => Disjoint a.sectors b.sectors

/-- The sectors are in the buffer, in order, and nothing else has changed. -/
structure ReadExact (devNo lba buf secCnt : ℕ) (x x' : Ata) : Prop where
  filled : ∀ l i, lba ≤ l → l < lba + secCnt → i < 512 →
    x'.mem ((buf + (512 * (l - lba) + i)) % 4294967296) = x.disks (decide (devNo = 1)) l i
  rest : ∀ a < 4294967296, 512 * secCnt ≤ bufOffset buf a → x'.mem a = x.mem a
  disks : x'.disks = x.disks
  issued : IssuedExact lba secCnt x x'

/-- The buffer is in the sectors, in order, and nothing else has changed. -/
structure WriteExact (devNo lba buf secCnt : ℕ) (x x' : Ata) : Prop where
  stored : ∀ l i, lba ≤ l → l < lba + secCnt → i < 512 →
    x'.disks (decide (devNo = 1)) l i = x.mem ((buf + (512 * (l - lba) + i)) % 4294967296)
  rest : ∀ dev l, dev ≠ decide (devNo = 1) ∨ l < lba ∨ lba + secCnt ≤ l →
    x'.disks dev l = x.disks dev l
  mem : ∀ a < 4294967296, x'.mem a = x.mem a
  issued : IssuedExact lba secCnt x x'

theorem Moved.issuedExact {secCnt : ℕ} (h : Moved op devNo lba buf 0 secCnt x x') :
    IssuedExact lba secCnt x x' := by
  obtain ⟨cs, hcs, htiles⟩ := h.issued
  exact ⟨cs, hcs, htiles, htiles.consecutive.pairwise⟩

theorem Moved.readExact {secCnt : ℕ} (h : Moved .read devNo lba buf 0 secCnt x x')
    (hbuf : buf < 4294967296) (hcnt : 512 * secCnt ≤ 4294967296) :
    ReadExact devNo lba buf secCnt x x' := by
  refine ⟨fun l i hlo hhi hi => ?_, fun a ha hout => ?_, ?_, h.issuedExact⟩
  · have hoff : bufOffset buf ((buf + (512 * (l - lba) + i)) % 4294967296) =
        512 * (l - lba) + i := by
      unfold bufOffset
      omega
    rw [h.mem _ (Nat.mod_lt _ (by decide)), hoff, if_pos ⟨rfl, by omega, by omega⟩, diskByte,
      show (512 * lba + (512 * (l - lba) + i)) / 512 = l by omega,
      show (512 * lba + (512 * (l - lba) + i)) % 512 = i by omega]
  · rw [h.mem a ha, if_neg (by omega)]
  · funext dev l i
    rw [h.disks, if_neg fun hc => nomatch hc.1]

theorem Moved.writeExact {secCnt : ℕ} (h : Moved .write devNo lba buf 0 secCnt x x') :
    WriteExact devNo lba buf secCnt x x' := by
  refine ⟨fun l i hlo hhi hi => ?_, fun dev l hout => ?_, fun a ha => ?_, h.issuedExact⟩
  · rw [h.disks, if_pos ⟨rfl, rfl, hi, hlo, hhi⟩]
  · funext i
    rw [h.disks, if_neg]
    rintro ⟨-, hdev, -, hlo, hhi⟩
    rcases hout with hout | hout | hout
    · exact hout hdev
    · omega
    · omega
  · rw [h.mem a ha, if_neg fun hc => nomatch hc.1]

/-- **Transfers of many sectors are exact.** -/
theorem transfer_exact (x : Ata) (hidle : x.left = 0) (devNo lba buf secCnt : ℕ)
    (hbuf : buf < 4294967296) (hpos : 1 ≤ secCnt) (hend : lba + secCnt - 1 ≤ maxLba) :
    (∃ x', ideRead x devNo lba buf secCnt = .ok x' ∧ ReadExact devNo lba buf secCnt x x') ∧
      ∃ x', ideWrite x devNo lba buf secCnt = .ok x' ∧ WriteExact devNo lba buf secCnt x x' := by
  obtain ⟨x₁, hread, hmoved₁⟩ :=
    @exists_transfer x devNo lba buf hidle hbuf secCnt hpos hend .read
  obtain ⟨x₂, hwrite, hmoved₂⟩ :=
    @exists_transfer x devNo lba buf hidle hbuf secCnt hpos hend .write
  rw [maxLba_eq] at hend
  exact ⟨⟨x₁, hread, hmoved₁.readExact hbuf (by omega)⟩, ⟨x₂, hwrite, hmoved₂.writeExact⟩⟩

/-- A drive without data, at rest. -/
def idleAta : Ata where
  regs := ⟨0, 0, 0, 0, 0⟩
  disks _ := fun _ => zero
  pos := 0
  left := 0
  issued := []
  mem _ := 0

/-- 257 sectors, one more than a command can move. -/
theorem transfer_exact_two :
    (∃ x', ideRead idleAta 0 0 0 257 = .ok x' ∧ ReadExact 0 0 0 257 idleAta x') ∧
      ∃ x', ideWrite idleAta 0 0 0 257 = .ok x' ∧ WriteExact 0 0 0 257 idleAta x' :=
  transfer_exact idleAta rfl 0 0 0 257 (by decide) (by decide) (by decide)

end Ata

end Gardos.Device
