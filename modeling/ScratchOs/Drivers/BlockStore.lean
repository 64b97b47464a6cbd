import ScratchOs.Drivers.AtaSectors

/-!
# The block devices as one store

Block device `i` is sectors of 256 words, and nothing of the registry, the four drives, the two
cables and their interrupts is to be seen. Here whole sequences of calls, of any of the registered
devices, on the machine of `AtaDrive`.

The store is a function of three numbers and has two operations. What it leaves out is what could
make two devices one: that they share a cable and its registers, that both cables share a driver,
and that a registry entry is a pointer that could lead to another device than the one it was made
for (`Registered`).

`Request.Fits` collects what the single calls need, and it is on the request alone. Larger
transfers, empty ones and blocks beyond 28 bits are the subject of `AtaSizes` and `Ata`, where
they are shown to go wrong; here they are left out. A drive that cannot read a sector is left out
as well, by `Idle`.
-/

set_option autoImplicit false

namespace ScratchOs.Drivers

/-- `block_device_t* block_device_get(uint8_t index)` -/
def blockDeviceGet (registry : List BlockDevice) (index : UInt8) : Option BlockDevice :=
  if registry.length ≤ index.toNat then none else registry[index.toNat]?

/-! ## The store -/

/-- The words of the sectors of the block devices. -/
abbrev Store := Nat → Nat → Nat → UInt16

/-- A call of `read` or `write` of block device `index`. -/
inductive Request
  | read (index : UInt8) (lba : UInt64) (size : UInt32)
  | write (index : UInt8) (lba : UInt64) (buffer : Nat → UInt16) (size : UInt32)

/-- The sectors from `lba` on hold the buffer, and the rest of the device and the other devices what
they held. -/
def Store.written (t : Store) (index : UInt8) (lba : UInt64) (buffer : Nat → UInt16)
    (size : UInt32) : Store :=
  fun i sector j =>
    if i = index.toNat ∧ lba.toNat ≤ sector ∧ sector < lba.toNat + size.toNat / 512 then
      buffer ((sector - lba.toNat) * 256 + j)
    else t i sector j

/-- Reading leaves the store as it is. -/
def Store.after (t : Store) : Request → Store
  | .read .. => t
  | .write index lba buffer size => t.written index lba buffer size

/-- The words in the buffer of a call when it has returned. -/
def Store.Answers (t : Store) : Request → (Nat → UInt16) → Prop
  | .read index lba size, out => ∀ k < size.toNat / 512, ∀ j < 256,
      out (k * 256 + j) = t index.toNat (lba.toNat + k) j
  | .write .., _ => True

/-- Each answer is by the store as the calls before have left it. -/
def Store.AnswersAll : Store → List Request → List (Nat → UInt16) → Prop
  | _, [], [] => True
  | t, r :: rs, out :: outs => t.Answers r out ∧ Store.AnswersAll (t.after r) rs outs
  | _, _, _ => False

/-! ## The calls -/

/-- Through the pointers of the block device. -/
def Request.ops (devices : List AtaDevice) (registry : List BlockDevice) :
    Request → Option (List Op)
  | .read index lba size =>
    (blockDeviceGet registry index).bind fun b => ataReadBlock devices b lba size
  | .write index lba buffer size =>
    (blockDeviceGet registry index).bind fun b => ataWriteBlock devices b lba buffer size

/-- One call after the other, each as far as its return, with the buffers they leave. -/
inductive Served (devices : List AtaDevice) (registry : List BlockDevice) :
    Machine → List Request → List (Nat → UInt16) → Machine → Prop
  | nil (s : Machine) : Served devices registry s [] [] s
  | cons {s s₁ s' : Machine} {r : Request} {ops : List Op} {rs : List Request}
      {outs : List (Nat → UInt16)} (hops : r.ops devices registry = some ops)
      (hsteps : Machine.Steps (s.call ops) s₁) (hdone : s₁.ops = [])
      (hrest : Served devices registry s₁ rs outs s') :
      Served devices registry s (r :: rs) (s₁.out :: outs) s'

/-- Of whole sectors, of which a command can have 256, in the part of the disk that 28 bits can
number, on a device there is. -/
structure Request.Fits (registry : List BlockDevice) (index : UInt8) (lba : UInt64)
    (size : UInt32) : Prop where
  index : index.toNat < registry.length
  whole : size.toNat % 512 = 0
  least : 512 ≤ size.toNat
  most : size.toNat ≤ 131072
  lba : lba.toNat + size.toNat / 512 ≤ 268435456

def Request.Valid (registry : List BlockDevice) : Request → Prop
  | .read index lba size => Request.Fits registry index lba size
  | .write index lba _ size => Request.Fits registry index lba size

/-- No command is in progress and no interrupt is left over, anywhere; and the disks are good. -/
structure Idle (s : Machine) : Prop where
  rests : ∀ x, (s.drive x).phase.rests
  pending : ∀ c, s.pending c = none
  readable : ∀ x sector, (s.drive x).unreadable sector = false

theorem Idle.quiet {s : Machine} (h : Idle s) (d : AtaDevice) : Quiet d s :=
  ⟨h.rests, h.pending d.cable⟩

/-! ## One call -/

namespace Machine

variable {s s' : Machine}

/-- No operation of the driver raises or takes an interrupt. -/
theorem exec_pending {op : Op} (h : s.exec op = some s') : s'.pending = s.pending := by
  cases op with
  | outb port value =>
    cases h
    unfold outb
    split
    · split_ifs
      · rfl
      · rfl
    · rfl
  | outw port word =>
    cases h
    unfold outw
    split
    · split_ifs
      · rfl
      · rfl
    · rfl
  | inw port index =>
    cases h
    show (s.inw port).2.pending = _
    unfold inw
    split
    · split_ifs
      · rfl
      · rfl
    · rfl
  | waitNotBusy port =>
    rw [exec] at h
    split_ifs at h
    cases h
    rfl
  | waitDataRequest port =>
    rw [exec] at h
    split_ifs at h
    · cases h
      rfl
    · cases h
      rfl
  | clearFlag c =>
    cases h
    rfl
  | waitFlag c irq =>
    obtain ⟨got, _, rfl⟩ := Option.map_eq_some_iff.mp h
    rfl

end Machine

section

variable {d : AtaDevice} {inv : Line → Prop} {s s' : Machine}

/-- The other cable stays silent: its drives rest. -/
theorem Polite.pending (h : Polite d inv) (hd : d.Wired)
    (hstep : ∀ l l', inv l → Line.Step d l l' → inv l')
    (hrest : ∀ x ≠ d.unit, (s.drive x).phase.rests) (hinv : inv (s.line d))
    (hs : Machine.Steps s s') {c : Cable} (hc : c ≠ d.cable) (hnone : s.pending c = none) :
    s'.pending c = none := by
  induction hs with
  | refl => exact hnone
  | @tail y z hprefix hlast ih =>
    obtain ⟨_, hothers⟩ := h.steps hd hstep hrest hinv hprefix
    cases hlast with
    | driver hops hexec => rw [Machine.exec_pending hexec, ih]
    | handler c' hpending =>
      show Function.update y.pending c' none c = none
      by_cases hcc : c = c'
      · rw [hcc, Function.update_self]
      · rw [Function.update_of_ne hcc, ih]
    | @drive v irq x hwork =>
      show Function.update y.pending x.1 _ c = none
      by_cases hx : x = d.unit
      · rw [Function.update_of_ne (by rw [hx]; exact hc), ih]
      · rw [Drive.work_eq_none (by rw [hothers x hx]; exact hrest x hx)] at hwork
        cases hwork

/-- A call of one device, from the side of all of them. -/
theorem Idle.after (hidle : Idle s) (hquiet : Quiet d s')
    (hothers : ∀ x ≠ d.unit, s'.drive x = s.drive x)
    (hreadable : (s'.drive d.unit).unreadable = (s.drive d.unit).unreadable)
    (hpending : ∀ c ≠ d.cable, s'.pending c = none) : Idle s' := by
  refine ⟨hquiet.rests, fun c => ?_, fun x sector => ?_⟩
  · by_cases hc : c = d.cable
    · rw [hc]
      exact hquiet.pending
    · exact hpending c hc
  · by_cases hx : x = d.unit
    · rw [hx, hreadable]
      exact hidle.readable _ _
    · rw [hothers x hx]
      exact hidle.readable _ _

variable {lba : UInt64} {size : UInt32} {m : Nat} (hd : d.Wired) (hm : 1 ≤ m) (hm' : m ≤ 256)
  (hsize : size.toNat = m * 512) (hlba : lba.toNat + m ≤ 268435456) (hidle : Idle s)
  (hdone : s'.ops = [])

include hd hm hm' hsize hlba hidle hdone

/-- A write, from the side of the whole machine. -/
theorem write_idle (buffer : Nat → UInt16)
    (hs : Machine.Steps (s.call (ataWriteLba28 d lba buffer size)) s') :
    Idle s' ∧ (s'.drive d.unit).disk = written (s.drive d.unit).disk lba.toNat buffer m ∧
      ∀ x ≠ d.unit, s'.drive x = s.drive x := by
  have hquiet := hidle.quiet d
  obtain ⟨hdrive, hothers, hquiet', _⟩ :=
    write_spec hd hm hm' hsize hlba buffer hquiet hs hdone
  obtain ⟨haddr, hsectors⟩ := setupFile_call hd hm hm' hsize hlba
  have hstart := writeCall_start lba size hd hquiet buffer
  rw [haddr, sectorsIn_toNat hm' hsize] at hstart
  have hrests : ∀ x ≠ d.unit,
      ((s.call (ataWriteLba28 d lba buffer size)).drive x).phase.rests := fun x _ => hquiet.rests x
  refine ⟨hidle.after hquiet' hothers (by rw [hdrive]) fun c hc => ?_, by rw [hdrive], hothers⟩
  exact (WriteCall.polite (slaveBit_setupFile hd lba _)).pending hd
    (fun _ _ h hl => h.step haddr hsectors hm (hquiet.rests _) hl)
    hrests hstart hs hc (hidle.pending c)

/-- And a read, which changes no disk at all. -/
theorem read_idle (hs : Machine.Steps (s.call (ataReadLba28 d lba size)) s') :
    Idle s' ∧ s'.out = filled lba.toNat (s.drive d.unit) s.out (m * 256) ∧
      ∀ x, (s'.drive x).disk = (s.drive x).disk := by
  have hquiet := hidle.quiet d
  have hgood : ∀ k < m, (s.drive d.unit).unreadable (lba.toNat + k) = false := fun k _ =>
    hidle.readable _ _
  obtain ⟨hout, hdrive, hothers, hquiet', _⟩ :=
    read_spec hd hm hm' hsize hlba hquiet hgood hs hdone
  have hrests : ∀ x ≠ d.unit,
      ((s.call (ataReadLba28 d lba size)).drive x).phase.rests := fun x _ => hquiet.rests x
  refine ⟨hidle.after hquiet' hothers (by rw [hdrive]) fun c hc => ?_, hout, fun x => ?_⟩
  · exact (SectorRead.polite hd).pending hd
      (fun _ _ h hl => h.step hd hm hm' hsize hlba hquiet hgood hl)
      hrests (sectorRead_start hd hm hm' hsize hlba hquiet) hs hc (hidle.pending c)
  · by_cases hx : x = d.unit
    · rw [hx, hdrive]
    · rw [hothers x hx]

end

/-! ## The registry -/

/-- The block devices are those of different drives. -/
structure Registered (devices : List AtaDevice) (registry : List BlockDevice) : Prop where
  device : ∀ b ∈ registry, ∃ d, devices[b.data]? = some d ∧ d.Wired
  data : (registry.map BlockDevice.data).Nodup
  units : (devices.map AtaDevice.unit).Nodup

section

variable {σ : Type} [IoPorts σ] {fuel : Nat}

/-- What `ata_identify` fills in is not where the drive is. -/
theorem ataIdentify_unit {d d' : AtaDevice} {ports ports' : σ}
    (hrun : ataIdentify fuel d ports = some (d', ports')) : d'.unit = d.unit := by
  rcases ataIdentify_cases hrun with rfl | ⟨buffer, rfl⟩
  · rfl
  · unfold parseIdentify
    simp only
    split
    · rfl
    · rfl

/-- Identifying the devices leaves them where they are, and what is registered points to one
after the other. -/
theorem identifyFrom_order {ds ds' : List AtaDevice} :
    ∀ {i : Nat} {registry registry' : List BlockDevice} {ports ports' : σ},
      identifyFrom fuel i ds registry ports = some (ds', registry', ports') →
      ds'.map AtaDevice.unit = ds.map AtaDevice.unit ∧
        ∃ new, registry' = registry ++ new ∧ (new.map BlockDevice.data).Nodup ∧
          ∀ b ∈ new, i ≤ b.data := by
  induction ds generalizing ds' with
  | nil =>
    intro i registry registry' ports ports' hrun
    cases hrun
    exact ⟨rfl, [], (List.append_nil _).symm, List.nodup_nil, fun b hb => absurd hb (by simp)⟩
  | cons d ds ih =>
    intro i registry registry' ports ports' hrun
    obtain ⟨⟨d₁, ports₁⟩, hid, hrun⟩ := Option.bind_eq_some_iff.mp hrun
    obtain ⟨⟨ds₂, registry₂, ports₂⟩, hrest, hrun⟩ := Option.bind_eq_some_iff.mp hrun
    cases hrun
    obtain ⟨hunits, new, rfl, hnodup, hlater⟩ := ih hrest
    refine ⟨by rw [List.map_cons, List.map_cons, hunits, ataIdentify_unit hid], ?_⟩
    have hnew : ∀ b ∈ new, i ≤ b.data := fun b hb => Nat.le_of_succ_le (hlater b hb)
    unfold blockDeviceRegister
    split_ifs
    · exact ⟨new, rfl, hnodup, hnew⟩
    · refine ⟨_ :: new, by rw [List.append_assoc]; rfl, List.nodup_cons.mpr ⟨?_, hnodup⟩, ?_⟩
      · rintro hmem
        obtain ⟨b, hb, hdata⟩ := List.mem_map.mp hmem
        have := hlater b hb
        simp only at hdata
        omega
      · intro b hb
        rcases List.mem_cons.mp hb with rfl | hb
        · exact Nat.le_refl i
        · exact hnew b hb
    · exact ⟨new, rfl, hnodup, hnew⟩

/-- Whatever drives there are and whatever they answer, `ata_init` registers different ones. -/
theorem ataInit_registered {ports ports' : σ} {devices : List AtaDevice}
    {registry : List BlockDevice}
    (hinit : ataInit fuel [] ports = some (devices, registry, ports')) :
    Registered devices registry := by
  obtain ⟨hunits, new, hnew, hnodup, _⟩ := identifyFrom_order hinit
  obtain ⟨_, new', hnew', hdevice⟩ := identifyFrom_registered hinit ataDevices_wired
  rw [List.nil_append] at hnew hnew'
  subst hnew hnew'
  refine ⟨fun b hb => ?_, hnodup, ?_⟩
  · obtain ⟨j, d, hdata, hget, hd, _⟩ := hdevice b hb
    rw [hdata, Nat.zero_add]
    exact ⟨d, hget, hd⟩
  · rw [hunits]
    decide

end

/-- The disks hold what the store says. -/
def DisksHold (devices : List AtaDevice) (registry : List BlockDevice) (s : Machine) (t : Store) :
    Prop :=
  ∀ i b d, registry[i]? = some b → devices[b.data]? = some d → ∀ sector, ∀ j < 256,
    (s.drive d.unit).disk sector j = t i sector j

namespace Registered

variable {devices : List AtaDevice} {registry : List BlockDevice} {d d' : AtaDevice}
  {b b' : BlockDevice} {i j : Nat}

theorem get (h : Registered devices registry) {index : UInt8}
    (hindex : index.toNat < registry.length) : ∃ b d, blockDeviceGet registry index = some b ∧
      registry[index.toNat]? = some b ∧ devices[b.data]? = some d ∧ d.Wired := by
  have hget := List.getElem?_eq_getElem hindex
  obtain ⟨d, hd, hwired⟩ := h.device _ (List.getElem_mem hindex)
  refine ⟨_, d, ?_, hget, hd, hwired⟩
  rw [blockDeviceGet, if_neg (Nat.not_le.mpr hindex), hget]

/-- Two block devices are two drives: their entries point to different devices, and these are at
different places. -/
theorem unit_ne (h : Registered devices registry) (hi : registry[i]? = some b)
    (hd : devices[b.data]? = some d) (hj : registry[j]? = some b')
    (hd' : devices[b'.data]? = some d') (hne : i ≠ j) : d'.unit ≠ d.unit := by
  have hdata : b.data ≠ b'.data := by
    intro heq
    apply hne
    have hlt : i < (registry.map BlockDevice.data).length := by
      rw [List.length_map]
      exact (List.getElem?_eq_some_iff.mp hi).1
    apply (List.getElem?_inj hlt h.data).mp
    rw [List.getElem?_map, List.getElem?_map, hi, hj, Option.map_some, Option.map_some, heq]
  intro hunit
  apply hdata
  have hlt : b.data < (devices.map AtaDevice.unit).length := by
    rw [List.length_map]
    exact (List.getElem?_eq_some_iff.mp hd).1
  apply (List.getElem?_inj hlt h.units).mp
  rw [List.getElem?_map, List.getElem?_map, hd, hd', Option.map_some, Option.map_some, hunit]

end Registered

section

variable {devices : List AtaDevice} {registry : List BlockDevice} {index : UInt8} {lba : UInt64}
  {size : UInt32} {b : BlockDevice} {d : AtaDevice} {s s' : Machine} {t : Store}

theorem Request.Fits.toNat_size (h : Request.Fits registry index lba size) :
    size.toNat = size.toNat / 512 * 512 := by
  have := h.whole
  omega

/-- A write leaves the disks holding what it leaves in the store. -/
theorem write_holds (hregistered : Registered devices registry)
    (hfits : Request.Fits registry index lba size) (hb : registry[index.toNat]? = some b)
    (hd : devices[b.data]? = some d) (hwired : d.Wired) (hidle : Idle s)
    (hholds : DisksHold devices registry s t) (buffer : Nat → UInt16)
    (hs : Machine.Steps (s.call (ataWriteLba28 d lba buffer size)) s') (hdone : s'.ops = []) :
    Idle s' ∧ DisksHold devices registry s' (t.after (.write index lba buffer size)) := by
  have hmost := hfits.most
  have hleast := hfits.least
  obtain ⟨hidle', hdisk, hothers⟩ := write_idle hwired (by omega) (by omega) hfits.toNat_size
    hfits.lba hidle hdone buffer hs
  refine ⟨hidle', fun i c e hc he sector j hj => ?_⟩
  rw [Store.after, Store.written]
  by_cases hi : i = index.toNat
  · subst hi
    obtain rfl : b = c := Option.some.inj (hb.symm.trans hc)
    obtain rfl : d = e := Option.some.inj (hd.symm.trans he)
    rw [hdisk]
    by_cases hsector : lba.toNat ≤ sector ∧ sector < lba.toNat + size.toNat / 512
    · obtain ⟨k, rfl⟩ := Nat.exists_eq_add_of_le hsector.1
      rw [if_pos ⟨rfl, hsector⟩, written_get _ _ _ (by omega)]
      simp only
      rw [sectorWords_getD _ _ hj, Nat.add_sub_cancel_left]
    · rw [if_neg (fun h => hsector h.2), written_of_not_mem _ _ _ hsector]
      exact hholds _ _ _ hc he sector j hj
  · rw [if_neg (fun h => hi h.1), hothers _ (hregistered.unit_ne hb hd hc he (Ne.symm hi))]
    exact hholds _ _ _ hc he sector j hj

theorem read_holds (hfits : Request.Fits registry index lba size)
    (hb : registry[index.toNat]? = some b) (hd : devices[b.data]? = some d) (hwired : d.Wired)
    (hidle : Idle s) (hholds : DisksHold devices registry s t)
    (hs : Machine.Steps (s.call (ataReadLba28 d lba size)) s') (hdone : s'.ops = []) :
    Idle s' ∧ DisksHold devices registry s' t ∧ t.Answers (.read index lba size) s'.out := by
  have hmost := hfits.most
  have hleast := hfits.least
  obtain ⟨hidle', hout, hdisk⟩ := read_idle hwired (by omega) (by omega) hfits.toNat_size
    hfits.lba hidle hdone hs
  refine ⟨hidle', fun i c e hc he sector j hj => ?_, fun k hk j hj => ?_⟩
  · rw [hdisk]
    exact hholds _ _ _ hc he sector j hj
  · have hplace : (k * 256 + j) / 256 = k ∧ (k * 256 + j) % 256 = j := by omega
    rw [hout, filled, if_pos (by omega), hplace.1, hplace.2]
    exact hholds _ _ _ hb hd _ j hj

/-- A call that fits is of a device that is there, does to the disks what it does to the store,
and returns. -/
theorem serve_one (hregistered : Registered devices registry) {r : Request}
    (hvalid : r.Valid registry) (hidle : Idle s) (hholds : DisksHold devices registry s t) :
    ∃ ops, r.ops devices registry = some ops ∧
      (∃ s', Machine.Steps (s.call ops) s' ∧ s'.ops = []) ∧
      ∀ s', Machine.Steps (s.call ops) s' → s'.ops = [] →
        Idle s' ∧ DisksHold devices registry s' (t.after r) ∧ t.Answers r s'.out := by
  cases r with
  | read index lba size =>
    have hfits : Request.Fits registry index lba size := hvalid
    have hmost := hfits.most
    have hleast := hfits.least
    obtain ⟨b, d, hget, hb, hd, hwired⟩ := hregistered.get hfits.index
    refine ⟨ataReadLba28 d lba size, ?_, ?_, fun s' hs hdone => ?_⟩
    · rw [Request.ops, hget, Option.bind_some, ataReadBlock, hd, Option.map_some]
    · exact read_returns lba hwired (by omega) (by omega) hfits.toNat_size (hidle.quiet d)
        (hidle.readable _)
    · exact read_holds hfits hb hd hwired hidle hholds hs hdone
  | write index lba buffer size =>
    have hfits : Request.Fits registry index lba size := hvalid
    have hmost := hfits.most
    have hleast := hfits.least
    obtain ⟨b, d, hget, hb, hd, hwired⟩ := hregistered.get hfits.index
    refine ⟨ataWriteLba28 d lba buffer size, ?_, ?_, fun s' hs hdone => ?_⟩
    · rw [Request.ops, hget, Option.bind_some, ataWriteBlock, hd, Option.map_some]
    · exact write_returns lba hwired (by omega) (by omega) hfits.toNat_size buffer (hidle.quiet d)
    · obtain ⟨hidle', hholds'⟩ :=
        write_holds hregistered hfits hb hd hwired hidle hholds buffer hs hdone
      exact ⟨hidle', hholds', trivial⟩

/-! ## Runs -/

theorem served_exists (hregistered : Registered devices registry) {rs : List Request} :
    ∀ {s : Machine} {t : Store}, (∀ r ∈ rs, r.Valid registry) → Idle s →
      DisksHold devices registry s t → ∃ outs s', Served devices registry s rs outs s' := by
  induction rs with
  | nil => exact fun {s t} _ _ _ => ⟨[], s, .nil s⟩
  | cons r rs ih =>
    intro s t hvalid hidle hholds
    obtain ⟨ops, hops, ⟨s₁, hsteps, hdone⟩, hall⟩ :=
      serve_one hregistered (hvalid r List.mem_cons_self) hidle hholds
    obtain ⟨hidle₁, hholds₁, _⟩ := hall s₁ hsteps hdone
    obtain ⟨outs, s', hrest⟩ := ih (fun r hr => hvalid r (List.mem_cons_of_mem _ hr)) hidle₁ hholds₁
    exact ⟨_, s', .cons hops hsteps hdone hrest⟩

theorem Served.refines (hregistered : Registered devices registry) {rs : List Request}
    {outs : List (Nat → UInt16)} (hrun : Served devices registry s rs outs s') :
    ∀ {t : Store}, (∀ r ∈ rs, r.Valid registry) → Idle s → DisksHold devices registry s t →
      Idle s' ∧ DisksHold devices registry s' (rs.foldl Store.after t) ∧ t.AnswersAll rs outs := by
  induction hrun with
  | nil s => exact fun {t} _ hidle hholds => ⟨hidle, hholds, trivial⟩
  | cons hops hsteps hdone _ ih =>
    intro t hvalid hidle hholds
    obtain ⟨ops, hops', _, hall⟩ :=
      serve_one hregistered (hvalid _ List.mem_cons_self) hidle hholds
    obtain rfl := Option.some.inj (hops.symm.trans hops')
    obtain ⟨hidle₁, hholds₁, hanswer⟩ := hall _ hsteps hdone
    obtain ⟨hidle', hholds', hanswers⟩ :=
      ih (fun r hr => hvalid r (List.mem_cons_of_mem _ hr)) hidle₁ hholds₁
    exact ⟨hidle', hholds', hanswer, hanswers⟩

end

/-- **The block devices that `ata_init` registers are one store.** However the driver, the
handlers and the drives take turns, a sequence of calls leaves on the disks what it leaves in the
store, and every read finds what the store has there by then: the last write to each sector, of
that device and no other. And every sequence can be brought to its end. -/
theorem blockDevices_refine_store {σ : Type} [IoPorts σ] {fuel : Nat} {ports ports' : σ}
    {devices : List AtaDevice} {registry : List BlockDevice}
    (hinit : ataInit fuel [] ports = some (devices, registry, ports')) {s : Machine} {t : Store}
    (hidle : Idle s) (hholds : DisksHold devices registry s t) {rs : List Request}
    (hvalid : ∀ r ∈ rs, r.Valid registry) :
    (∃ outs s', Served devices registry s rs outs s') ∧
      ∀ outs s', Served devices registry s rs outs s' →
        Idle s' ∧ DisksHold devices registry s' (rs.foldl Store.after t) ∧ t.AnswersAll rs outs := by
  have hregistered := ataInit_registered hinit
  exact ⟨served_exists hregistered hvalid hidle hholds,
    fun _ _ hrun => hrun.refines hregistered hvalid hidle hholds⟩

/-! ### Two writes to one empty disk -/

theorem emptyDisks_idle : Idle (emptyDisks fun _ => false) :=
  ⟨fun _ => rfl, fun _ => rfl, fun _ _ => rfl⟩

/-- The second write goes over the second sector of the first, and the read takes both. -/
def overwriting : List Request :=
  [.write 0 7 (fun _ => 1) 1024, .write 0 8 (fun _ => 2) 512, .read 0 7 1024]

theorem blockDevices_refine_store_overwriting : ∃ devices outs s' out,
    Served devices [⟨0x100000, 512, 0⟩] (emptyDisks fun _ => false) overwriting outs s' ∧
    outs[2]? = some out ∧ (∀ j < 256, out j = 1) ∧ ∀ j < 256, out (256 + j) = 2 := by
  obtain ⟨d, rest, ports', hinit, _⟩ := ataInit_oneDrive 0x100000
  rw [show OneDrive.announced 0x100000 = 0x100000 by decide, List.nil_append] at hinit
  have hvalid : ∀ r ∈ overwriting, r.Valid [⟨0x100000, 512, 0⟩] := by
    intro r hr
    simp only [overwriting, List.mem_cons, List.not_mem_nil, or_false] at hr
    rcases hr with rfl | rfl | rfl
    · exact ⟨by decide, by decide, by decide, by decide, by decide⟩
    · exact ⟨by decide, by decide, by decide, by decide, by decide⟩
    · exact ⟨by decide, by decide, by decide, by decide, by decide⟩
  obtain ⟨⟨outs, s', hrun⟩, hall⟩ := blockDevices_refine_store hinit emptyDisks_idle
    (t := fun _ _ _ => 0) (fun _ _ _ _ _ _ _ _ => rfl) hvalid
  obtain ⟨_, _, hanswers⟩ := hall outs s' hrun
  match outs, hanswers with
  | [_, _, out], ⟨_, _, hread, _⟩ =>
    refine ⟨_, _, s', out, hrun, rfl, fun j hj => ?_, fun j hj => ?_⟩
    · have h := hread 0 (by decide) j hj
      rw [Nat.zero_mul, Nat.zero_add] at h
      rw [h]
      rfl
    · have h := hread 1 (by decide) j hj
      rw [Nat.one_mul] at h
      rw [h]
      rfl

end ScratchOs.Drivers
