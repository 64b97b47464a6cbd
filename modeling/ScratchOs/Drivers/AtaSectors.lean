import ScratchOs.Drivers.AtaRead

/-!
# What the transfers do to the disk

Whole calls of `ata_write_lba28` and `ata_read_lba28`, on the machine of `AtaDrive`:
`write_then_read`, and for the read alone `readsWhatIsOffered_iff`.

A call begins and ends in a quiet machine (`Quiet`): no command is in progress on the cable, and no
interrupt is left over from one. The end of one call is then the beginning of the next, by whichever
device, and a sequence needs no more than this said twice. What is left in the registers and in the
driver's flag does not matter, as each call writes its registers and clears its flag before it sends
a command.
-/

set_option autoImplicit false

namespace ScratchOs.Drivers

def Machine.call (s : Machine) (ops : List Op) : Machine := { s with ops := ops }

/-- A call can begin: no command is in progress, and no interrupt of the cable is left over. -/
structure Quiet (d : AtaDevice) (s : Machine) : Prop where
  rests : ∀ x, (s.drive x).phase.rests
  pending : s.pending d.cable = none

/-! ## The number of sectors -/

theorem sectors_setupFile (d : AtaDevice) (lba : UInt64) (sectorCount : UInt32) :
    (setupFile d lba sectorCount).sectors =
      if sectorCount.toNat % 256 = 0 then 256 else sectorCount.toNat % 256 := by
  have hcount : sectorCount.toUInt8.toNat = sectorCount.toNat % 256 :=
    UInt32.toNat_toUInt8 sectorCount
  have hzero : sectorCount.toUInt8 = 0 ↔ sectorCount.toNat % 256 = 0 := by
    rw [← hcount, ← UInt8.toNat_inj]
    rfl
  rw [TaskFile.sectors, setupFile]
  simp only [hzero, hcount]

theorem sectors_pos (d : AtaDevice) (lba : UInt64) (sectorCount : UInt32) :
    0 < (setupFile d lba sectorCount).sectors := by
  rw [sectors_setupFile]
  split_ifs
  · exact Nat.zero_lt_succ 255
  · omega

theorem sectorsIn_toNat {size : UInt32} {m : Nat} (hm : m ≤ 256) (hsize : size.toNat = m * 512) :
    (sectorsIn size).toNat = m := by
  have hadd : (size + 511).toNat = m * 512 + 511 := by
    rw [UInt32.toNat_add, hsize, show (511 : UInt32).toNat = 511 from rfl]
    exact Nat.mod_eq_of_lt (by omega)
  rw [sectorsIn, UInt32.toNat_div, hadd, show (512 : UInt32).toNat = 512 from rfl]
  omega

/-! ## Both calls as lines -/

section Calls

variable {d : AtaDevice} {lba : UInt64} {size : UInt32} {s s' : Machine}

theorem writeCall_start (lba : UInt64) (size : UInt32) (hd : d.Wired) (hquiet : Quiet d s)
    (buffer : Nat → UInt16) :
    WriteCall d (setupFile d lba (sectorsIn size)).lba (sectorsIn size).toNat buffer
      (s.drive d.unit) s.log (setupFile d lba (sectorsIn size)) s.out
      ((s.call (ataWriteLba28 d lba buffer size)).line d) := by
  refine .beginning ⟨⟨_, ?_, setup_lba28Setup hd lba (sectorsIn size) _ _⟩, rfl, rfl, rfl,
    hquiet.pending⟩
  rw [writeFrom, Nat.sub_zero, ← List.range_eq_range']
  rfl

theorem readCall_start (lba : UInt64) (size : UInt32) (hd : d.Wired) (hquiet : Quiet d s) :
    ReadCall d (setupFile d lba (sectorsIn size)).lba (setupFile d lba (sectorsIn size)).sectors
      (sectorsIn size).toNat (s.drive d.unit) s.out s.log (setupFile d lba (sectorsIn size))
      ((s.call (ataReadLba28 d lba size)).line d) := by
  refine .beginning ⟨⟨_, ?_, setup_lba28Setup hd lba (sectorsIn size) _ _⟩, rfl, rfl, rfl,
    hquiet.pending⟩
  rw [readFrom, Nat.sub_zero, ← List.range_eq_range']
  rfl

theorem sectors_call {m : Nat} (d : AtaDevice) (lba : UInt64) (hm : 1 ≤ m) (hm' : m ≤ 256)
    (hsize : size.toNat = m * 512) : (setupFile d lba (sectorsIn size)).sectors = m := by
  rw [sectors_setupFile, sectorsIn_toNat hm' hsize]
  split_ifs
  · omega
  · omega

/-- A drive that gets such a call takes it for the sectors that are meant. -/
theorem setupFile_call {m : Nat} (hd : d.Wired) (hm : 1 ≤ m) (hm' : m ≤ 256)
    (hsize : size.toNat = m * 512) (hlba : lba.toNat + m ≤ 268435456) :
    (setupFile d lba (sectorsIn size)).lba = lba.toNat ∧
      (setupFile d lba (sectorsIn size)).sectors = m := by
  refine ⟨?_, sectors_call d lba hm hm' hsize⟩
  rw [lba_setupFile hd]
  omega

/-- After a call the drive rests, and no other drive has moved. -/
theorem Quiet.after (hquiet : Quiet d s) (hrests : (s'.drive d.unit).phase.rests)
    (hothers : ∀ x ≠ d.unit, s'.drive x = s.drive x) (hpending : s'.pending d.cable = none) :
    Quiet d s' := by
  refine ⟨fun x => ?_, hpending⟩
  rcases eq_or_ne x d.unit with rfl | hne
  · exact hrests
  · rw [hothers x hne]
    exact hquiet.rests x

/-- After a write of `m` sectors. -/
theorem write_spec {m : Nat} (hd : d.Wired) (hm : 1 ≤ m) (hm' : m ≤ 256)
    (hsize : size.toNat = m * 512) (hlba : lba.toNat + m ≤ 268435456) (buffer : Nat → UInt16)
    (hquiet : Quiet d s) (hs : Machine.Steps (s.call (ataWriteLba28 d lba buffer size)) s')
    (hdone : s'.ops = []) :
    s'.drive d.unit = ⟨.idle, written (s.drive d.unit).disk lba.toNat buffer m,
        (s.drive d.unit).unreadable⟩ ∧
      (∀ x ≠ d.unit, s'.drive x = s.drive x) ∧ Quiet d s' ∧
      s'.log = s.log ++ matched ((List.range m).map .stored ++ [.flushed]) := by
  have hcount := sectorsIn_toNat hm' hsize
  have hstart := writeCall_start lba size hd hquiet buffer
  obtain ⟨haddr, hsectors⟩ := setupFile_call hd hm hm' hsize hlba
  rw [haddr, hcount] at hstart
  obtain ⟨hend, hothers⟩ := (WriteCall.polite (slaveBit_setupFile hd lba _)).steps
    (s := s.call (ataWriteLba28 d lba buffer size)) hd
    (fun _ _ h hl => h.step haddr hsectors hm (hquiet.rests _) hl)
    (fun x _ => hquiet.rests x) hstart hs
  have hdone' : (s'.line d).ops = [] := hdone
  cases hend with
  | beginning h => exact absurd hdone' h.ops_ne_nil
  | writing _ _ h =>
    obtain ⟨hlog, hset⟩ := h.of_nil hdone'
    have hdrive : s'.drive d.unit = ⟨.idle, written (s.drive d.unit).disk lba.toNat buffer m,
        (s.drive d.unit).unreadable⟩ := hset.drive
    refine ⟨hdrive, hothers, hquiet.after ?_ hothers hset.pending, hlog⟩
    rw [hdrive]
    rfl

/-! ### Reading sectors that can be read -/

/-- The line of `ata_read_lba28` for `m` sectors that can be named in 28 bits: the drive takes it
for the sectors that are meant. -/
def SectorRead (d : AtaDevice) (lba : UInt64) (size : UInt32) (m : Nat) (s : Machine) :
    Line → Prop :=
  ReadCall d lba.toNat m m (s.drive d.unit) s.out s.log (setupFile d lba (sectorsIn size))

section SectorRead

variable {m : Nat} (hd : d.Wired) (hm : 1 ≤ m) (hm' : m ≤ 256) (hsize : size.toNat = m * 512)
  (hlba : lba.toNat + m ≤ 268435456) (hquiet : Quiet d s)

include hd hm hm' hsize hlba hquiet

theorem sectorRead_start :
    SectorRead d lba size m s ((s.call (ataReadLba28 d lba size)).line d) := by
  have hstart := readCall_start lba size hd hquiet
  obtain ⟨haddr, hsectors⟩ := setupFile_call hd hm hm' hsize hlba
  rwa [haddr, sectorsIn_toNat hm' hsize, hsectors] at hstart

theorem SectorRead.step
    (hgood : ∀ k < m, (s.drive d.unit).unreadable (lba.toNat + k) = false) {l l' : Line}
    (h : SectorRead d lba size m s l) (hl : Line.Step d l l') :
    SectorRead d lba size m s l' := by
  obtain ⟨haddr, hsectors⟩ := setupFile_call hd hm hm' hsize hlba
  exact ReadCall.step_readable haddr hsectors hm (fun h => absurd h (lt_irrefl _))
    (hquiet.rests _) (fun k hk => hgood k (hk.trans_le (min_le_left m m))) h hl

omit hm hm' hsize hlba hquiet in
theorem SectorRead.polite : Polite d (SectorRead d lba size m s) :=
  ReadCall.polite (slaveBit_setupFile hd lba _)

end SectorRead

/-- After a read of `m` sectors that the drive can all read. -/
theorem read_spec {m : Nat} (hd : d.Wired) (hm : 1 ≤ m) (hm' : m ≤ 256)
    (hsize : size.toNat = m * 512) (hlba : lba.toNat + m ≤ 268435456) (hquiet : Quiet d s)
    (hgood : ∀ k < m, (s.drive d.unit).unreadable (lba.toNat + k) = false)
    (hs : Machine.Steps (s.call (ataReadLba28 d lba size)) s') (hdone : s'.ops = []) :
    s'.out = filled lba.toNat (s.drive d.unit) s.out (m * 256) ∧
      s'.drive d.unit = { s.drive d.unit with phase := .idle } ∧
      (∀ x ≠ d.unit, s'.drive x = s.drive x) ∧
      Quiet d s' ∧ s'.log = s.log ++ matched ((List.range m).map .ready) := by
  obtain ⟨hend, hothers⟩ := (SectorRead.polite hd).steps
    (s := s.call (ataReadLba28 d lba size)) hd
    (fun _ _ h hl => h.step hd hm hm' hsize hlba hquiet hgood hl) (fun x _ => hquiet.rests x)
    (sectorRead_start hd hm hm' hsize hlba hquiet) hs
  have hdone' : (s'.line d).ops = [] := hdone
  cases hend with
  | beginning h => exact absurd hdone' h.ops_ne_nil
  | reading _ h =>
    obtain ⟨hlog, hout, hset⟩ := h.of_nil hdone'
    have hsettled := hset (by omega)
    have hdrive : s'.drive d.unit = { s.drive d.unit with phase := .idle } := hsettled.drive
    refine ⟨hout, hdrive, hothers, hquiet.after ?_ hothers hsettled.pending, hlog⟩
    rw [hdrive]
    rfl

/-- **What is written is read back**, in whatever order the driver, the handlers and the drives
have moved. Only the sectors written have changed, and each interrupt was the one the driver
waited for. -/
theorem write_then_read {m : Nat} (hd : d.Wired) (hm : 1 ≤ m) (hm' : m ≤ 256)
    (hsize : size.toNat = m * 512) (hlba : lba.toNat + m ≤ 268435456) (buffer : Nat → UInt16)
    {s₀ s₁ s₂ : Machine} (hquiet : Quiet d s₀)
    (hgood : ∀ sector, (s₀.drive d.unit).unreadable sector = false)
    (hwrite : Machine.Steps (s₀.call (ataWriteLba28 d lba buffer size)) s₁) (hw : s₁.ops = [])
    (hread : Machine.Steps (s₁.call (ataReadLba28 d lba size)) s₂) (hr : s₂.ops = []) :
    (∀ i < m * 256, s₂.out i = buffer i) ∧
      (∀ sector, ¬ (lba.toNat ≤ sector ∧ sector < lba.toNat + m) →
        (s₂.drive d.unit).disk sector = (s₀.drive d.unit).disk sector) ∧
      (∀ x ≠ d.unit, (s₂.drive x).disk = (s₀.drive x).disk) ∧
      s₂.log = s₀.log ++ matched ((List.range m).map .stored ++ [.flushed] ++
        (List.range m).map .ready) := by
  obtain ⟨hdrive, hothers, hquiet', hlog⟩ :=
    write_spec hd hm hm' hsize hlba buffer hquiet hwrite hw
  have hgood' : ∀ k < m, (s₁.drive d.unit).unreadable (lba.toNat + k) = false := by
    intro k _
    rw [hdrive]
    exact hgood _
  obtain ⟨hout, hdrive', hothers', _, hlog'⟩ :=
    read_spec hd hm hm' hsize hlba hquiet' hgood' hread hr
  refine ⟨fun i hi => ?_, fun sector hsector => ?_, fun x hx => ?_, ?_⟩
  · rw [hout, filled, if_pos hi, hdrive]
    have hk : i / 256 < m := by omega
    have hj : i % 256 < 256 := Nat.mod_lt _ (by decide)
    simp only
    rw [written_get _ _ _ hk]
    simp only
    rw [sectorWords_getD _ _ hj, Nat.div_add_mod' i 256]
  · rw [hdrive', hdrive]
    exact written_of_not_mem _ _ _ hsector
  · rw [hothers' x hx, hothers x hx]
  · rw [hlog', hlog, List.append_assoc, matched, matched, matched, ← List.map_append]

/-- A write can be brought to its end. -/
theorem write_returns (lba : UInt64) {m : Nat} (hd : d.Wired) (hm : 1 ≤ m) (hm' : m ≤ 256)
    (hsize : size.toNat = m * 512) (buffer : Nat → UInt16) (hquiet : Quiet d s) :
    ∃ s', Machine.Steps (s.call (ataWriteLba28 d lba buffer size)) s' ∧ s'.ops = [] := by
  have hcount := sectorsIn_toNat hm' hsize
  have hstart := writeCall_start lba size hd hquiet buffer
  have hsectors := (sectors_call d lba hm hm' hsize).trans hcount.symm
  refine (WriteCall.polite (slaveBit_setupFile hd lba _)).reaches
    (fun l => l.ops = []) (s := s.call (ataWriteLba28 d lba buffer size)) hd
    (fun l h => ?_) (fun x _ => hquiet.rests x) hstart
  rcases h.next (hquiet.rests _) with hnil | ⟨l', hl⟩
  · exact Or.inl hnil
  · exact Or.inr ⟨l', hl, Or.inl (h.step rfl hsectors (by omega) (hquiet.rests _) hl)⟩

/-- A read can come to its end as well, where the drive can read the sectors. -/
theorem read_returns (lba : UInt64) {m : Nat} (hd : d.Wired) (hm : 1 ≤ m) (hm' : m ≤ 256)
    (hsize : size.toNat = m * 512) (hquiet : Quiet d s)
    (hgood : ∀ sector, (s.drive d.unit).unreadable sector = false) :
    ∃ s', Machine.Steps (s.call (ataReadLba28 d lba size)) s' ∧ s'.ops = [] := by
  have hcount := sectorsIn_toNat hm' hsize
  have hstart := readCall_start lba size hd hquiet
  have hsectors := (sectors_call d lba hm hm' hsize).trans hcount.symm
  rw [hsectors] at hstart
  refine (ReadCall.polite (slaveBit_setupFile hd lba _)).reaches
    (fun l => l.ops = []) (s := s.call (ataReadLba28 d lba size)) hd
    (fun l h => ?_) (fun x _ => hquiet.rests x) hstart
  rcases h.next (hquiet.rests _) with ⟨l', hl⟩ | ⟨hnil | hlt, _⟩
  rotate_left
  · exact Or.inl hnil
  · exact absurd hlt (lt_irrefl _)
  · exact Or.inr ⟨l', hl, Or.inl (h.step_readable rfl hsectors (by omega)
      (fun h => absurd h (lt_irrefl _)) (hquiet.rests _) (fun _ _ => hgood _) hl)⟩

/-! ## A read that fails -/

/-- In every state of the call: the driver goes to the data port only for a word that the drive
has, of the sector it has it for; and from a sector on that the drive reports as failed the
buffer is left alone. -/
def ReadsWhatIsOffered (d : AtaDevice) (lba : UInt64) (size : UInt32) (s₀ : Machine) : Prop :=
  ∀ s, Machine.Steps (s₀.call (ataReadLba28 d lba size)) s →
    (∀ port index rest, s.ops = .inw port index :: rest →
      (s.drive d.unit).status &&& 0x08 ≠ 0 ∧ (s.drive d.unit).status &&& 0x01 = 0 ∧
        ∃ lba' n, (s.drive d.unit).phase = .readReady lba' n (index / 256) (index % 256)) ∧
    ∀ k, (s.drive d.unit).phase = .failed k → ∀ i, k * 256 ≤ i → s.out i = s₀.out i

theorem Drive.offers_status {v : Drive} {lba n k j : Nat} (h : v.phase = .readReady lba n k j) :
    v.status &&& 0x08 ≠ 0 ∧ v.status &&& 0x01 = 0 := by
  have hstatus : v.status = 0x48 := by rw [Drive.status, h]
  rw [hstatus]
  decide

/-- A drive that has been told to read other than the driver wants has been told to read less,
or the driver wants nothing. -/
theorem sectors_ne (d : AtaDevice) (lba : UInt64) (sectorCount : UInt32)
    (hlt : sectorCount.toNat < (setupFile d lba sectorCount).sectors) : sectorCount.toNat = 0 := by
  rw [sectors_setupFile] at hlt
  split_ifs at hlt
  · omega
  · omega

theorem offered_of_readable (hd : d.Wired) (hquiet : Quiet d s)
    (hgood : ∀ i < min (sectorsIn size).toNat (setupFile d lba (sectorsIn size)).sectors,
      (s.drive d.unit).unreadable (lba.toNat % 268435456 + i) = false) :
    ReadsWhatIsOffered d lba size s := by
  intro s' hs
  obtain ⟨hend, _⟩ := (ReadCall.polite (slaveBit_setupFile hd lba _)).steps
    (s := s.call (ataReadLba28 d lba size)) hd
    (fun l l' h hl => h.step_readable rfl rfl (sectors_pos d lba _) (sectors_ne d lba _)
      (hquiet.rests _) (fun k hk => by rw [lba_setupFile hd, hgood k hk]) hl)
    (fun x _ => hquiet.rests x) (readCall_start lba size hd hquiet) hs
  obtain ⟨hoffered, hkept⟩ := hend.sound
  refine ⟨fun port index rest hops => ?_, hkept⟩
  obtain ⟨lba', n, hphase⟩ := hoffered port index rest hops
  obtain ⟨hrequest, herror⟩ := Drive.offers_status hphase
  exact ⟨hrequest, herror, lba', n, hphase⟩

/-- Past a sector that it cannot read the drive has nothing, and the driver goes on. -/
theorem not_offered_of_unreadable (hd : d.Wired) (hquiet : Quiet d s) {i : Nat}
    (hi : i < min (sectorsIn size).toNat (setupFile d lba (sectorsIn size)).sectors)
    (hbad : (s.drive d.unit).unreadable (lba.toNat % 268435456 + i) = true) :
    ¬ ReadsWhatIsOffered d lba size s := by
  intro hall
  obtain ⟨s', hs, k, hruined⟩ := (ReadCall.polite (slaveBit_setupFile hd lba _)).reaches
    (fun l => ∃ k, Ruined d (setupFile d lba (sectorsIn size)).lba
      (setupFile d lba (sectorsIn size)).sectors (sectorsIn size).toNat (s.drive d.unit) k l)
    (s := s.call (ataReadLba28 d lba size)) hd
    (fun l h => by
      rcases h.next (hquiet.rests _) with ⟨l', hl⟩ | ⟨_, hgood⟩
      · refine Or.inr ⟨l', hl, ?_⟩
        exact (h.step rfl rfl (sectors_pos d lba _) (sectors_ne d lba _) (hquiet.rests _)
          hl).imp id fun ⟨k, hruined, _⟩ => ⟨k, hruined⟩
      · rw [lba_setupFile hd] at hgood
        rw [hgood i hi] at hbad
        cases hbad)
    (fun x _ => hquiet.rests x) (readCall_start lba size hd hquiet)
  have hops : s'.ops = drain d _ k 0 := hruined.ops
  rw [drain_lt (by decide)] at hops
  obtain ⟨_, _, _, _, hphase⟩ := (hall s' hs).1 _ _ _ hops
  rw [show s'.drive d.unit = _ from hruined.drive] at hphase
  cases hphase

/-- **When the driver reads what the drive offers**: when the drive can read every sector that
it has been told to read and the driver wants. -/
theorem readsWhatIsOffered_iff (hd : d.Wired) (hquiet : Quiet d s) :
    ReadsWhatIsOffered d lba size s ↔
      ∀ i < min (sectorsIn size).toNat (setupFile d lba (sectorsIn size)).sectors,
        (s.drive d.unit).unreadable (lba.toNat % 268435456 + i) = false := by
  constructor
  · intro hall i hi
    by_contra hbad
    exact not_offered_of_unreadable hd hquiet hi (Bool.eq_true_of_not_eq_false hbad) hall
  · exact offered_of_readable hd hquiet

end Calls

/-! ### Four empty disks -/

/-- Every sector of every disk is zero, and `bad` cannot be read. -/
def emptyDisks (bad : Nat → Bool) : Machine where
  ops := []
  out := fun _ => 0x1111
  log := []
  taskFile := fun _ => ⟨0, 0, 0, 0, 0⟩
  drive := fun _ => ⟨.idle, fun _ _ => 0, bad⟩
  pending := fun _ => none
  flag := fun _ => none

theorem emptyDisks_quiet (d : AtaDevice) (bad : Nat → Bool) : Quiet d (emptyDisks bad) :=
  ⟨fun _ => rfl, rfl⟩

def primaryMaster : AtaDevice := ataInitDevice ataPrimaryBase ataPrimaryControl 0

theorem primaryMaster_wired : primaryMaster.Wired := ⟨Or.inl rfl, Or.inl rfl⟩

/-- Three sectors from sector 7 on. -/
theorem write_then_read_seven : ∃ s₁ s₂,
    Machine.Steps ((emptyDisks fun _ => false).call
      (ataWriteLba28 primaryMaster 7 (fun i => UInt16.ofNat i) 1536)) s₁ ∧
    Machine.Steps (s₁.call (ataReadLba28 primaryMaster 7 1536)) s₂ ∧
    ∀ i < 3 * 256, s₂.out i = UInt16.ofNat i := by
  have hd := primaryMaster_wired
  have hquiet := emptyDisks_quiet primaryMaster fun _ => false
  have hsize : (1536 : UInt32).toNat = 3 * 512 := rfl
  have hgood : ∀ sector, ((emptyDisks fun _ => false).drive primaryMaster.unit).unreadable sector =
      false := fun _ => rfl
  obtain ⟨s₁, hwrite, hw⟩ := write_returns 7 (m := 3) hd
    (by decide) (by decide) hsize (fun i => UInt16.ofNat i) hquiet
  obtain ⟨hdrive, _, hquiet₁, _⟩ := write_spec (m := 3) hd (by decide) (by decide) rfl (by decide)
    _ hquiet hwrite hw
  have hgood₁ : ∀ sector, (s₁.drive primaryMaster.unit).unreadable sector = false := by
    intro sector
    rw [hdrive]
    rfl
  obtain ⟨s₂, hread, hr⟩ := read_returns 7 (m := 3) hd
    (by decide) (by decide) hsize hquiet₁ hgood₁
  exact ⟨s₁, s₂, hwrite, hread, (write_then_read (m := 3) hd (by decide) (by decide) rfl
    (by decide) _ hquiet hgood hwrite hw hread hr).1⟩

theorem readsWhatIsOffered_good :
    ReadsWhatIsOffered primaryMaster 7 1024 (emptyDisks fun sector => sector == 9) := by
  refine (readsWhatIsOffered_iff primaryMaster_wired (emptyDisks_quiet ..)).mpr fun i hi => ?_
  have hi₂ : i < 2 := Nat.lt_of_lt_of_le hi (Nat.min_le_left ..)
  have hall : ∀ i < 2, ((7 : UInt64).toNat % 268435456 + i == 9) = false := by decide
  exact hall i hi₂

/-- One sector is read, and it is a bad one: the driver takes its words all the same. -/
theorem bad_sector_taken :
    ¬ ReadsWhatIsOffered primaryMaster 7 512 (emptyDisks fun sector => sector == 7) :=
  not_offered_of_unreadable (i := 0) primaryMaster_wired (emptyDisks_quiet ..) (by decide) rfl

end ScratchOs.Drivers
