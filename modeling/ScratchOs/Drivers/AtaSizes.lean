import ScratchOs.Drivers.AtaSectors

/-!
# How much a transfer moves

The size of a transfer comes in bytes. The drive is told a number of sectors, in a register of
eight bits where 0 stands for 256; the loops of `ata_read_lba28` and `ata_write_lba28` count to
the same number, in 32 bits; and in each round they move a whole sector.

`sectorsAgree_iff` says for which sizes the three mean the same, and `transfersInside_iff` for
which of those the transfer is as long as the buffer.

Neither statement is about a drive. What is told and what is done are both in the list of operations
that a call comes to, so they can be counted there: the command with its registers, the rounds, the
indices that are stored to, the words that are sent. For the last of these a list does not say which
bytes a word was made of, and the statement is that what is sent does not change with the bytes
behind the buffer.
-/

set_option autoImplicit false

namespace ScratchOs.Drivers

/-- The first operation of a round of either loop. -/
def Op.beginsSector : Op → Bool
  | .waitFlag _ (.ready _) => true
  | .waitDataRequest _ => true
  | _ => false

/-- The rounds of the loop, where no error ends it. -/
def rounds (ops : List Op) : Nat := ops.countP Op.beginsSector

/-- The sectors that `size` bytes take: `size / 512`, rounded up. -/
def sectorsNeeded (size : UInt32) : Nat := (size.toNat + 511) / 512

/-- The two calls send their commands with a count that means `sectorsNeeded size` to the drive,
and go round as often. -/
structure SectorsAgree (d : AtaDevice) (lba : UInt64) (size : UInt32) : Prop where
  read : ∀ tf, ∃ tf', firstCommand d.cable tf (ataReadLba28 d lba size) = some (0x20, tf') ∧
    tf'.sectors = sectorsNeeded size
  readRounds : rounds (ataReadLba28 d lba size) = sectorsNeeded size
  write : ∀ buffer tf, ∃ tf', firstCommand d.cable tf (ataWriteLba28 d lba buffer size) =
    some (0x30, tf') ∧ tf'.sectors = sectorsNeeded size
  writeRounds : ∀ buffer, rounds (ataWriteLba28 d lba buffer size) = sectorsNeeded size

/-- No fewer sectors have room for the bytes. -/
theorem sectorsNeeded_le_iff (size : UInt32) (n : Nat) :
    sectorsNeeded size ≤ n ↔ size.toNat ≤ n * 512 := by
  unfold sectorsNeeded
  omega

theorem toNat_sectorsIn (size : UInt32) :
    (sectorsIn size).toNat = (size.toNat + 511) % 4294967296 / 512 := by
  rw [sectorsIn, UInt32.toNat_div, UInt32.toNat_add]
  rfl

/-! ## The rounds -/

theorem rounds_append (ops ops' : List Op) : rounds (ops ++ ops') = rounds ops + rounds ops' :=
  List.countP_append

theorem rounds_map {f : Nat → Op} (h : ∀ j, (f j).beginsSector = false) (js : List Nat) :
    rounds (js.map f) = 0 := by
  refine List.countP_eq_zero.mpr fun op hop => ?_
  obtain ⟨j, _, rfl⟩ := List.mem_map.mp hop
  rw [h j]
  exact Bool.false_ne_true

/-- One for each sector. -/
theorem rounds_flatMap {f : Nat → List Op} (h : ∀ i, rounds (f i) = 1) (is : List Nat) :
    rounds (is.flatMap f) = is.length := by
  induction is with
  | nil => rfl
  | cons i is ih =>
    rw [List.flatMap_cons, rounds_append, h, ih, List.length_cons]
    exact Nat.add_comm 1 _

theorem rounds_readSector (d : AtaDevice) (i : Nat) : rounds (readSector d i) = 1 := by
  have hwords : rounds ((List.range 256).map fun j => Op.inw d.base (i * 256 + j)) = 0 :=
    rounds_map (fun _ => rfl) _
  rw [readSector, rounds, List.countP_cons_of_pos rfl, List.countP_cons_of_neg Bool.false_ne_true,
    ← rounds, hwords]

theorem rounds_writeSector (d : AtaDevice) (buffer : Nat → UInt16) (i : Nat) :
    rounds (writeSector d buffer i) = 1 := by
  have hwords : rounds ((List.range 256).map fun j => Op.outw d.base (buffer (i * 256 + j))) = 0 :=
    rounds_map (fun _ => rfl) _
  have hwait : rounds [.waitFlag d.cable (.stored i), .clearFlag d.cable] = 0 := rfl
  rw [writeSector, rounds_append, hwait, rounds, List.countP_cons_of_pos rfl, ← rounds, hwords]

theorem rounds_ataReadLba28 (d : AtaDevice) (lba : UInt64) (size : UInt32) :
    rounds (ataReadLba28 d lba size) = (sectorsIn size).toNat := by
  have hsetup : rounds (lba28Setup d lba (sectorsIn size)) = 0 := rfl
  have hcommand : rounds [.outb (d.base + 7) 0x20, .waitNotBusy (d.base + 7)] = 0 := rfl
  calc rounds (ataReadLba28 d lba size)
      = rounds (lba28Setup d lba (sectorsIn size) ++
          ([.outb (d.base + 7) 0x20, .waitNotBusy (d.base + 7)] ++
            (List.range (sectorsIn size).toNat).flatMap (readSector d))) := rfl
    _ = (sectorsIn size).toNat := by
      rw [rounds_append, rounds_append, hsetup, hcommand,
        rounds_flatMap (rounds_readSector d), List.length_range, Nat.zero_add, Nat.zero_add]

theorem rounds_ataWriteLba28 (d : AtaDevice) (lba : UInt64) (buffer : Nat → UInt16)
    (size : UInt32) : rounds (ataWriteLba28 d lba buffer size) = (sectorsIn size).toNat := by
  have hsetup : rounds (lba28Setup d lba (sectorsIn size)) = 0 := rfl
  have hcommand : rounds [.outb (d.base + 7) 0x30] = 0 := rfl
  have hflush : rounds (flushCache d) = 0 := rfl
  calc rounds (ataWriteLba28 d lba buffer size)
      = rounds (lba28Setup d lba (sectorsIn size) ++ ([.outb (d.base + 7) 0x30] ++
          ((List.range (sectorsIn size).toNat).flatMap (writeSector d buffer) ++ flushCache d))) :=
        rfl
    _ = (sectorsIn size).toNat := by
      rw [rounds_append, rounds_append, rounds_append, hsetup, hcommand, hflush,
        rounds_flatMap (rounds_writeSector d buffer), List.length_range, Nat.zero_add,
        Nat.zero_add, Nat.add_zero]

/-! ## The three numbers -/

/-- The register and the loop both have what `size` needs. -/
theorem counts_iff (d : AtaDevice) (lba : UInt64) (size : UInt32) :
    (setupFile d lba (sectorsIn size)).sectors = sectorsNeeded size ∧
        (sectorsIn size).toNat = sectorsNeeded size ↔
      1 ≤ size.toNat ∧ size.toNat ≤ 131072 := by
  have hlt := size.toNat_lt
  rw [sectors_setupFile, toNat_sectorsIn, sectorsNeeded]
  constructor
  · -- Eight bits hold 1 to 256, and 32 bits lose what the rounding up carries out of them.
    intro ⟨hregister, hloop⟩
    split_ifs at hregister with hzero
    · omega
    · omega
  · intro hsize
    split_ifs with hzero
    · omega
    · omega

/-- **When drive and driver agree on the number of sectors**: for 1 byte up to 256 sectors. -/
theorem sectorsAgree_iff {d : AtaDevice} (hd : d.Wired) (lba : UInt64) (size : UInt32) :
    SectorsAgree d lba size ↔ 1 ≤ size.toNat ∧ size.toNat ≤ 131072 := by
  rw [← counts_iff d lba size]
  constructor
  · intro h
    obtain ⟨tf', hfirst, hsectors⟩ := h.read ⟨0, 0, 0, 0, 0⟩
    rw [ataReadLba28, firstCommand_setup hd] at hfirst
    cases hfirst
    exact ⟨hsectors, (rounds_ataReadLba28 d lba size).symm.trans h.readRounds⟩
  · intro ⟨hsectors, hcount⟩
    constructor
    · exact fun tf => ⟨_, firstCommand_setup hd .., hsectors⟩
    · exact (rounds_ataReadLba28 d lba size).trans hcount
    · exact fun buffer tf => ⟨_, firstCommand_setup hd .., hsectors⟩
    · exact fun buffer => (rounds_ataWriteLba28 d lba buffer size).trans hcount

theorem sectorsAgree_thousand : SectorsAgree primaryMaster 7 1000 :=
  (sectorsAgree_iff primaryMaster_wired 7 1000).mpr ⟨by decide, by decide⟩

/-- Nothing at all, 257 sectors, and as much as there is. The drive transfers 256, 1 and 256
sectors, and the driver 0, 257 and 0. -/
theorem sectors_disagree :
    ¬ SectorsAgree primaryMaster 7 0 ∧ ¬ SectorsAgree primaryMaster 7 131584 ∧
      ¬ SectorsAgree primaryMaster 7 0xFFFFFFFF := by
  have hsizes (size : UInt32) (hrounds : (sectorsIn size).toNat ≠ sectorsNeeded size ∨
      (setupFile primaryMaster 7 (sectorsIn size)).sectors ≠ sectorsNeeded size) :
      ¬ SectorsAgree primaryMaster 7 size := by
    intro h
    rcases hrounds with hne | hne
    · exact hne ((rounds_ataReadLba28 primaryMaster 7 size).symm.trans h.readRounds)
    · obtain ⟨tf', hfirst, hsectors⟩ := h.read ⟨0, 0, 0, 0, 0⟩
      rw [ataReadLba28, firstCommand_setup primaryMaster_wired] at hfirst
      cases hfirst
      exact hne hsectors
  exact ⟨hsizes 0 (Or.inr (by decide)), hsizes 131584 (Or.inr (by decide)),
    hsizes 0xFFFFFFFF (Or.inl (by decide))⟩

/-! ## The caller's buffer -/

/-- Word `index` of a buffer. -/
def wordOf (bytes : Nat → UInt8) (index : Nat) : UInt16 :=
  (bytes (2 * index)).toUInt16 ||| ((bytes (2 * index + 1)).toUInt16 <<< 8)

/-- Both bytes of every word that is stored are among the first `size`, and what is sent to the
drive depends on no others. Every word that is loaded is sent. -/
structure TransfersInside (d : AtaDevice) (lba : UInt64) (size : UInt32) : Prop where
  read : ∀ port index, .inw port index ∈ ataReadLba28 d lba size → 2 * index + 1 < size.toNat
  write : ∀ bytes bytes' : Nat → UInt8, (∀ i < size.toNat, bytes i = bytes' i) →
    ataWriteLba28 d lba (wordOf bytes) size = ataWriteLba28 d lba (wordOf bytes') size

/-- The words a read stores to: all those of its sectors. -/
theorem inw_mem_ataReadLba28 {d : AtaDevice} {lba : UInt64} {size : UInt32} {port : UInt16}
    {index : Nat} : .inw port index ∈ ataReadLba28 d lba size ↔
      port = d.base ∧ index < (sectorsIn size).toNat * 256 := by
  simp only [ataReadLba28, lba28Setup, readSector, List.mem_append, List.mem_cons,
    List.mem_flatMap, List.mem_range, List.mem_map, List.not_mem_nil, reduceCtorEq, false_or,
    or_false, Op.inw.injEq]
  constructor
  · rintro ⟨i, hi, j, hj, rfl, rfl⟩
    exact ⟨rfl, by omega⟩
  · rintro ⟨rfl, hindex⟩
    exact ⟨index / 256, by omega, index % 256, Nat.mod_lt _ (by decide), rfl,
      Nat.div_add_mod' index 256⟩

/-- The words a write sends. -/
theorem outw_mem_ataWriteLba28 {d : AtaDevice} {lba : UInt64} {buffer : Nat → UInt16}
    {size : UInt32} {port value : UInt16} : .outw port value ∈ ataWriteLba28 d lba buffer size ↔
      port = d.base ∧ ∃ index < (sectorsIn size).toNat * 256, value = buffer index := by
  simp only [ataWriteLba28, lba28Setup, writeSector, flushCache, List.mem_append, List.mem_cons,
    List.mem_flatMap, List.mem_range, List.mem_map, List.not_mem_nil, reduceCtorEq, false_or,
    or_false, Op.outw.injEq]
  constructor
  · rintro ⟨i, hi, j, hj, rfl, rfl⟩
    exact ⟨rfl, i * 256 + j, by omega, rfl⟩
  · rintro ⟨rfl, index, hindex, rfl⟩
    exact ⟨index / 256, by omega, index % 256, Nat.mod_lt _ (by decide), rfl,
      congrArg buffer (Nat.div_add_mod' index 256)⟩

/-- A write depends on its buffer through the words of its sectors. -/
theorem ataWriteLba28_congr (d : AtaDevice) (lba : UInt64) {size : UInt32}
    {buffer buffer' : Nat → UInt16}
    (h : ∀ index < (sectorsIn size).toNat * 256, buffer index = buffer' index) :
    ataWriteLba28 d lba buffer size = ataWriteLba28 d lba buffer' size := by
  have hsector : ∀ i < (sectorsIn size).toNat, writeSector d buffer i = writeSector d buffer' i := by
    intro i hi
    have hwords : ((List.range 256).map fun j => Op.outw d.base (buffer (i * 256 + j))) =
        (List.range 256).map fun j => Op.outw d.base (buffer' (i * 256 + j)) := by
      apply List.map_congr_left
      intro j hj
      rw [List.mem_range] at hj
      rw [h _ (by omega)]
    rw [writeSector, writeSector, hwords]
  have hsectors : (List.range (sectorsIn size).toNat).flatMap (writeSector d buffer) =
      (List.range (sectorsIn size).toNat).flatMap (writeSector d buffer') := by
    rw [List.flatMap_def, List.flatMap_def]
    apply congrArg
    apply List.map_congr_left
    intro i hi
    exact hsector i (List.mem_range.mp hi)
  rw [ataWriteLba28, ataWriteLba28, hsectors]

theorem wordOf_zero (index : Nat) : wordOf (fun _ => 0) index = 0 :=
  show (0 : UInt8).toUInt16 ||| ((0 : UInt8).toUInt16 <<< 8) = 0 by decide

/-- One byte that is not zero, and the word with it. -/
theorem wordOf_update (k : Nat) :
    wordOf (Function.update (fun _ => 0) k 1) (k / 2) ≠ 0 := by
  unfold wordOf
  rcases Nat.mod_two_eq_zero_or_one k with heven | hodd
  · have hlow : 2 * (k / 2) = k := by omega
    rw [hlow, Function.update_self, Function.update_of_ne (by omega)]
    decide
  · have hhigh : 2 * (k / 2) + 1 = k := by omega
    rw [hhigh, Function.update_self, Function.update_of_ne (by omega)]
    decide

/-- **When a transfer stays inside the buffer**: when the buffer is whole sectors. -/
theorem transfersInside_iff (d : AtaDevice) (lba : UInt64) {size : UInt32}
    (hone : 1 ≤ size.toNat) (hmax : size.toNat ≤ 131072) :
    TransfersInside d lba size ↔ size.toNat % 512 = 0 := by
  have hcount := toNat_sectorsIn size
  constructor
  · intro h
    by_contra hpart
    -- The byte behind the buffer is still in the last sector, and goes to the drive.
    have hindex : size.toNat / 2 < (sectorsIn size).toNat * 256 := by omega
    have hsame := h.write (fun _ => 0) (Function.update (fun _ => 0) size.toNat 1) fun i hi => by
      rw [Function.update_of_ne (Nat.ne_of_lt hi)]
    have hsent : Op.outw d.base (wordOf (Function.update (fun _ => 0) size.toNat 1)
        (size.toNat / 2)) ∈ ataWriteLba28 d lba (wordOf fun _ => 0) size := by
      rw [hsame]
      exact outw_mem_ataWriteLba28.mpr ⟨rfl, _, hindex, rfl⟩
    obtain ⟨_, index, _, hzero⟩ := outw_mem_ataWriteLba28.mp hsent
    rw [wordOf_zero] at hzero
    exact wordOf_update _ hzero
  · intro hwhole
    constructor
    · intro port index hmem
      have hindex := (inw_mem_ataReadLba28.mp hmem).2
      omega
    · intro bytes bytes' hagree
      apply ataWriteLba28_congr
      intro index hindex
      unfold wordOf
      rw [hagree _ (by omega), hagree _ (by omega)]

theorem transfersInside_page : TransfersInside primaryMaster 7 4096 :=
  (transfersInside_iff primaryMaster 7 (by decide) (by decide)).mpr (by decide)

/-- 100 bytes: 206 words are stored behind them, and what is behind them is written to the
disk. -/
theorem hundred_bytes_overrun : ¬ TransfersInside primaryMaster 7 100 ∧
    .inw 0x1F0 255 ∈ ataReadLba28 primaryMaster 7 100 := by
  have hmem : Op.inw 0x1F0 255 ∈ ataReadLba28 primaryMaster 7 100 :=
    inw_mem_ataReadLba28.mpr ⟨rfl, by decide⟩
  exact ⟨fun h => absurd (h.read _ _ hmem) (by decide), hmem⟩

end ScratchOs.Drivers
