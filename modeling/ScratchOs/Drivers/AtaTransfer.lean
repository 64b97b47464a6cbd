import ScratchOs.Drivers.AtaDrive

/-!
# Reading and writing sectors

The two transfer functions, run on a line. An invariant follows each call: where it is in its
operations, what the drive is doing meanwhile, and whether there is an interrupt about and whose.

Three times the driver waits for the flag and then clears it: after the words of a sector have
been written, after the command to flush, and before the words of a sector are read. `Handshake`
is that wait, and `Handshake.step` its rule.

The danger in a flag that is set by a handler and cleared by the driver is the interrupt that comes
between the wait and the clearing: it would be lost. What prevents it is the drive and not the
driver. A PIO drive does not raise the next interrupt before it has been given the next words, so
between the two there is none to lose, and `Settled`, no interrupt about, is what the handshake ends
in. The rule has this as its conclusion, and each transfer is then the setup, the handshakes and the
words between them, put together by cases on where the call is.
-/

set_option autoImplicit false

namespace ScratchOs.Drivers

/-! ## The flag -/

/-- No interrupt is about. -/
structure Settled (drive : Drive → Prop) (l : Line) : Prop where
  drive : drive l.drive
  pending : l.pending = none
  flag : l.flag = none

/-- The interrupt `irq` is still to be raised, is pending, or has set the flag. -/
inductive Awaited (irq : Irq) (before after : Drive → Prop) (l : Line) : Prop
  | busy (hdrive : before l.drive) (hpending : l.pending = none) (hflag : l.flag = none)
  | raised (hdrive : after l.drive) (hpending : l.pending = some irq) (hflag : l.flag = none)
  | flagged (hdrive : after l.drive) (hpending : l.pending = none) (hflag : l.flag = some irq)

/-- What the drive does by itself leads from `before` to `after`, with the interrupt. -/
structure Raises (irq : Irq) (before after : Drive → Prop) : Prop where
  busy : ∀ v, before v → v.status &&& 0x80 ≠ 0
  raise : ∀ v, before v → ∃ v', v.work = some (v', some irq) ∧ after v'
  stay : ∀ v v' irq', after v → v.work = some (v', irq') → irq' = none ∧ after v'

/-- `while (*irq_flag == 0) arch_halt(); *irq_flag = 0;` and what comes then. -/
inductive Handshake (c : Cable) (irq : Irq) (before after : Drive → Prop) (rest : List Op)
    (log : List (Irq × Irq)) (l : Line) : Prop
  | waiting (hops : l.ops = .waitFlag c irq :: .clearFlag c :: rest) (hlog : l.log = log)
      (hawait : Awaited irq before after l)
  | noticed (hops : l.ops = .clearFlag c :: rest) (hlog : l.log = log ++ [(irq, irq)])
      (hdrive : after l.drive) (hpending : l.pending = none) (hflag : l.flag = some irq)

section Rules

variable {d : AtaDevice} {c : Cable} {irq : Irq} {before after : Drive → Prop}
  {rest : List Op} {log : List (Irq × Irq)} {l l' : Line}

/-- The handler and the drive, while the interrupt is awaited. -/
theorem Awaited.step (h : Awaited irq before after l) (hr : Raises irq before after) :
    (∀ irq', l.pending = some irq' →
      Awaited irq before after { l with pending := none, flag := some irq' }) ∧
    ∀ v irq', l.drive.work = some (v, irq') →
      Awaited irq before after { l with drive := v, pending := irq'.or l.pending } := by
  cases h with
  | busy hdrive hpending hflag =>
    refine ⟨fun irq' h => (by rw [hpending] at h; cases h), fun v irq' hwork => ?_⟩
    obtain ⟨v', hv', hafter⟩ := hr.raise _ hdrive
    rw [hv'] at hwork
    cases hwork
    exact .raised hafter rfl hflag
  | raised hdrive hpending hflag =>
    refine ⟨fun irq' h => ?_, fun v irq' hwork => ?_⟩
    · rw [hpending] at h
      cases h
      exact .flagged hdrive rfl rfl
    · obtain ⟨rfl, hafter⟩ := hr.stay _ _ _ hdrive hwork
      exact .raised hafter hpending hflag
  | flagged hdrive hpending hflag =>
    refine ⟨fun irq' h => (by rw [hpending] at h; cases h), fun v irq' hwork => ?_⟩
    obtain ⟨rfl, hafter⟩ := hr.stay _ _ _ hdrive hwork
    exact .flagged hafter hpending hflag

/-- With no interrupt about the handler does nothing, and a drive that raises none may go on. -/
theorem Settled.step {drive : Drive → Prop} (h : Settled drive l)
    (hstay : ∀ v v' irq', drive v → v.work = some (v', irq') → irq' = none ∧ drive v') :
    (∀ irq', l.pending ≠ some irq') ∧
    ∀ v irq', l.drive.work = some (v, irq') →
      Settled drive { l with drive := v, pending := irq'.or l.pending } := by
  refine ⟨fun irq' hp => (by rw [h.pending] at hp; cases hp), fun v irq' hwork => ?_⟩
  obtain ⟨rfl, hv⟩ := hstay _ _ _ h.drive hwork
  exact ⟨hv, h.pending, h.flag⟩

/-- Next to a drive that has nothing to do only the driver moves. -/
theorem Settled.driver {drive : Drive → Prop} (h : Settled drive l)
    (hrest : ∀ v, drive v → v.work = none) (hs : Line.Step d l l') :
    ∃ op rest, l.ops = op :: rest ∧ Line.exec d { l with ops := rest } op = some l' := by
  cases hs with
  | driver hops hexec => exact ⟨_, _, hops, hexec⟩
  | handler hpending =>
    rw [h.pending] at hpending
    cases hpending
  | drive hwork =>
    rw [hrest _ h.drive] at hwork
    cases hwork

/-- **The rule of the handshake.** The driver is past it when the interrupt that has come is the
one it has waited for, and no other is about. Neither the buffer nor the registers change in it. -/
theorem Handshake.step (h : Handshake c irq before after rest log l)
    (hr : Raises irq before after) (hs : Line.Step d l l') :
    (Handshake c irq before after rest log l' ∨
      l'.ops = rest ∧ l'.log = log ++ [(irq, irq)] ∧ Settled after l') ∧
      l'.out = l.out ∧ l'.taskFile = l.taskFile := by
  cases h with
  | waiting hops hlog hawait =>
    cases hs with
    | driver hops' hexec =>
      rw [hops] at hops'
      cases hops'
      obtain ⟨got, hgot, rfl⟩ := Option.map_eq_some_iff.mp hexec
      refine ⟨Or.inl ?_, rfl, rfl⟩
      -- Only where the flag has been set does the driver get on.
      cases hawait with
      | busy _ _ hflag => rw [show l.flag = some got from hgot] at hflag; cases hflag
      | raised _ _ hflag => rw [show l.flag = some got from hgot] at hflag; cases hflag
      | flagged hdrive hpending hflag =>
        rw [show l.flag = some got from hgot] at hflag
        cases hflag
        exact .noticed rfl (by rw [← hlog]) hdrive hpending hgot
    | handler hpending =>
      exact ⟨Or.inl (.waiting hops hlog ((hawait.step hr).1 _ hpending)), rfl, rfl⟩
    | drive hwork =>
      exact ⟨Or.inl (.waiting hops hlog ((hawait.step hr).2 _ _ hwork)), rfl, rfl⟩
  | noticed hops hlog hdrive hpending hflag =>
    cases hs with
    | driver hops' hexec =>
      rw [hops] at hops'
      cases hops'
      cases hexec
      exact ⟨Or.inr ⟨rfl, hlog, hdrive, hpending, rfl⟩, rfl, rfl⟩
    | handler hp =>
      rw [hpending] at hp
      cases hp
    | drive hwork =>
      obtain ⟨rfl, hafter⟩ := hr.stay _ _ _ hdrive hwork
      exact ⟨Or.inl (.noticed hops hlog hafter hpending hflag), rfl, rfl⟩

/-- Somebody can always move while the driver waits. -/
theorem Handshake.next (h : Handshake c irq before after rest log l)
    (hr : Raises irq before after) : ∃ l', Line.Step d l l' := by
  cases h with
  | waiting hops hlog hawait =>
    cases hawait with
    | busy hdrive _ _ =>
      obtain ⟨v', hv', _⟩ := hr.raise _ hdrive
      exact ⟨_, .drive hv'⟩
    | raised _ hpending _ => exact ⟨_, .handler hpending⟩
    | flagged _ _ hflag => exact ⟨_, .driver hops (by rw [Line.exec, hflag]; rfl)⟩
  | noticed hops _ _ _ _ => exact ⟨_, .driver hops rfl⟩

theorem Handshake.ops_ne_nil (h : Handshake c irq before after rest log l) : l.ops ≠ [] := by
  cases h with
  | waiting hops _ _ =>
    rw [hops]
    exact List.cons_ne_nil _ _
  | noticed hops _ _ _ _ =>
    rw [hops]
    exact List.cons_ne_nil _ _

end Rules

/-! ## The registers -/

/-- Whatever is still to be done of `ops` leaves the registers at `goal` and the flag clear, and
it is done with the drive selected. -/
inductive Setup (d : AtaDevice) (goal : TaskFile) : List Op → TaskFile → Option Irq → Prop
  | done (hsel : goal.slaveBit = decide (d.slave = 1)) : Setup d goal [] goal none
  | register {reg : UInt16} {value : UInt8} {ops : List Op} {tf : TaskFile} {flag : Option Irq}
      (hreg : reg ∈ ([2, 3, 4, 5, 6] : List UInt16))
      (hrest : Setup d goal ops (tf.write reg value) flag) :
      Setup d goal (.outb (d.base + reg) value :: ops) tf flag
  | waitNotBusy {ops : List Op} {tf : TaskFile} {flag : Option Irq}
      (hsel : tf.slaveBit = decide (d.slave = 1)) (hrest : Setup d goal ops tf flag) :
      Setup d goal (.waitNotBusy (d.base + 7) :: ops) tf flag
  | clearFlag {ops : List Op} {tf : TaskFile} {flag : Option Irq}
      (hsel : tf.slaveBit = decide (d.slave = 1)) (hrest : Setup d goal ops tf none) :
      Setup d goal (.clearFlag d.cable :: ops) tf flag

/-- The first write of a call selects its drive, whichever was selected before. -/
theorem selectCommand_slaveBit {d : AtaDevice} (hd : d.Wired) (tf : TaskFile) :
    (tf.write 6 (selectCommand d)).slaveBit = decide (d.slave = 1) := by
  have hwrite : (tf.write 6 (selectCommand d)).driveHead = selectCommand d := by
    simp [TaskFile.write]
  rw [TaskFile.slaveBit, hwrite, selectCommand]
  rcases hd.slave with h | h
  · rw [h]
    decide
  · rw [h]
    decide

/-- How the transfers begin, whatever the registers and the flag hold. -/
theorem setup_lba28Setup {d : AtaDevice} (hd : d.Wired) (lba : UInt64) (sectorCount : UInt32)
    (tf : TaskFile) (flag : Option Irq) :
    Setup d (setupFile d lba sectorCount) (lba28Setup d lba sectorCount) tf flag := by
  have hgoal := slaveBit_setupFile hd lba sectorCount
  refine .register (by decide) (.waitNotBusy (selectCommand_slaveBit hd tf)
    (.register (by decide) (.register (by decide) (.register (by decide)
      (.register (by decide) (.register (by decide) (.clearFlag hgoal (.done hgoal))))))))

/-- The call up to its command. -/
structure Beginning (d : AtaDevice) (goal : TaskFile) (v : Drive) (command : UInt8)
    (rest : List Op) (out : Nat → UInt16) (log : List (Irq × Irq)) (l : Line) : Prop where
  ops : ∃ pre, l.ops = pre ++ .outb (d.base + 7) command :: rest ∧
    Setup d goal pre l.taskFile l.flag
  out : l.out = out
  log : l.log = log
  drive : l.drive = v
  pending : l.pending = none

section Beginning

variable {d : AtaDevice} {goal : TaskFile} {v : Drive} {command : UInt8} {rest : List Op}
  {out : Nat → UInt16} {log : List (Irq × Irq)} {l l' : Line}

/-- All of it goes to the device's own ports. -/
theorem Setup.lineOp {ops : List Op} {tf : TaskFile} {flag : Option Irq}
    (h : Setup d goal ops tf flag) : ∀ op ∈ ops, LineOp d op := by
  induction h with
  | done _ => exact fun op hop => absurd hop List.not_mem_nil
  | register hreg _ ih =>
    exact List.forall_mem_cons.mpr ⟨.register ⟨_, hreg, _, rfl⟩, ih⟩
  | waitNotBusy _ _ ih => exact List.forall_mem_cons.mpr ⟨.waitNotBusy, ih⟩
  | clearFlag _ _ ih => exact List.forall_mem_cons.mpr ⟨.clearFlag, ih⟩

theorem Beginning.lineOp (h : Beginning d goal v command rest out log l)
    (hrest : ∀ op ∈ rest, LineOp d op) : ∀ op ∈ l.ops, LineOp d op := by
  obtain ⟨pre, hops, hsetup⟩ := h.ops
  rw [hops]
  exact List.forall_mem_append.mpr
    ⟨hsetup.lineOp, List.forall_mem_cons.mpr ⟨.command command, hrest⟩⟩

/-- The next operation is for the selected drive, or it is a write of a register, which both drives
take. -/
theorem Beginning.talks (h : Beginning d goal v command rest out log l) : l.Talks d := by
  obtain ⟨pre, hops, hsetup⟩ := h.ops
  unfold Line.Talks
  generalize l.taskFile = tf at hsetup
  generalize l.flag = flag at hsetup
  cases hsetup with
  | done hsel => exact Or.inl hsel
  | register hreg _ =>
    refine Or.inr fun op hop => ?_
    rw [hops, List.cons_append, List.head?_cons] at hop
    cases hop
    exact ⟨_, hreg, _, rfl⟩
  | waitNotBusy hsel _ => exact Or.inl hsel
  | clearFlag hsel _ => exact Or.inl hsel

/-- A drive that has nothing to do is not busy. -/
theorem Drive.rests_status (hrest : v.phase.rests) : v.status &&& 0x80 = 0 := by
  obtain ⟨phase, disk, unreadable⟩ := v
  cases phase with
  | idle => exact (by decide : (0x40 : UInt8) &&& 0x80 = 0)
  | failed k => exact (by decide : (0x41 : UInt8) &&& 0x80 = 0)
  | _ => cases hrest

theorem Beginning.ops_ne_nil (h : Beginning d goal v command rest out log l) : l.ops ≠ [] := by
  obtain ⟨pre, hops, _⟩ := h.ops
  rw [hops]
  exact List.append_ne_nil_of_right_ne_nil _ (List.cons_ne_nil _ _)

/-- The drive rests and there is no interrupt, so the driver alone moves; and when the command
comes the registers are what they should be. -/
theorem Beginning.step (h : Beginning d goal v command rest out log l) (hrest : v.phase.rests)
    (hs : Line.Step d l l') :
    Beginning d goal v command rest out log l' ∨
      l' = ⟨rest, out, log, goal, v.command goal command, none, none⟩ := by
  obtain ⟨⟨pre, hops, hsetup⟩, hout, hlog, hdrive, hpending⟩ := h
  cases hs with
  | handler hp =>
    rw [hpending] at hp
    cases hp
  | drive hwork =>
    rw [hdrive, Drive.work_eq_none hrest] at hwork
    cases hwork
  | driver hops' hexec =>
    obtain ⟨_, _, _, taskFile, _, _, flag⟩ := l
    dsimp only at hops hsetup hout hlog hdrive hpending hops'
    subst hops hout hlog hdrive hpending
    cases hsetup with
    | done hsel =>
      cases hops'
      cases hexec
      right
      rw [if_pos rfl]
    | register hreg htail =>
      cases hops'
      cases hexec
      left
      rw [if_neg (register_ne_command hreg).2.1, add_sub_cancel_left]
      exact ⟨⟨_, rfl, htail⟩, rfl, rfl, rfl, rfl⟩
    | waitNotBusy hsel htail =>
      cases hops'
      rw [Line.exec] at hexec
      split_ifs at hexec
      cases hexec
      exact Or.inl ⟨⟨_, rfl, htail⟩, rfl, rfl, rfl, rfl⟩
    | clearFlag hsel htail =>
      cases hops'
      cases hexec
      exact Or.inl ⟨⟨_, rfl, htail⟩, rfl, rfl, rfl, rfl⟩

/-- Nobody has to be waited for before the command. -/
theorem Beginning.next (h : Beginning d goal v command rest out log l) (hrest : v.phase.rests) :
    ∃ l', Line.Step d l l' := by
  obtain ⟨⟨pre, hops, hsetup⟩, _, _, hdrive, _⟩ := h
  generalize l.taskFile = tf at hsetup
  generalize l.flag = flag at hsetup
  cases hsetup with
  | done _ => exact ⟨_, .driver hops rfl⟩
  | register _ _ => exact ⟨_, .driver hops rfl⟩
  | waitNotBusy _ _ =>
    have hidle : ¬ l.drive.status &&& 0x80 ≠ 0 := by
      rw [hdrive, Drive.rests_status hrest]
      decide
    exact ⟨_, .driver hops (if_neg hidle)⟩
  | clearFlag _ _ => exact ⟨_, .driver hops rfl⟩

end Beginning

/-! ## Writing -/

theorem Line.exec_request_busy {d : AtaDevice} {l : Line} {port : UInt16}
    (h : l.drive.status = 0x80) : l.exec d (.waitDataRequest port) = none := by
  rw [Line.exec, h, if_neg (by decide), if_neg (by decide)]

theorem Line.exec_request_ready {d : AtaDevice} {l : Line} {port : UInt16}
    (h : l.drive.status = 0x48) : l.exec d (.waitDataRequest port) = some l := by
  rw [Line.exec, h, if_neg (by decide), if_pos (by decide)]

/-- The words the driver writes for its sector `k`. -/
def sectorWords (buffer : Nat → UInt16) (k : Nat) : List UInt16 :=
  (List.range 256).map fun j => buffer (k * 256 + j)

/-- The disk after the first `k` sectors of the buffer. -/
def written (disk : Nat → Nat → UInt16) (lba : Nat) (buffer : Nat → UInt16) :
    Nat → Nat → Nat → UInt16
  | 0 => disk
  | k + 1 => storeSector (written disk lba buffer k) (lba + k) (sectorWords buffer k)

/-- No other sector is touched. -/
theorem written_of_not_mem (disk : Nat → Nat → UInt16) (lba : Nat) (buffer : Nat → UInt16)
    {k sector : Nat} (h : ¬ (lba ≤ sector ∧ sector < lba + k)) :
    written disk lba buffer k sector = disk sector := by
  induction k with
  | zero => rfl
  | succ k ih =>
    rw [written, storeSector, Function.update_of_ne (by omega)]
    exact ih (by omega)

/-- A sector that has been written keeps its words while later ones are. -/
theorem written_get (disk : Nat → Nat → UInt16) (lba : Nat) (buffer : Nat → UInt16) {i k : Nat}
    (h : i < k) :
    written disk lba buffer k (lba + i) = fun j => (sectorWords buffer i).getD j 0 := by
  induction k with
  | zero => cases h
  | succ k ih =>
    rw [written, storeSector]
    rcases Nat.lt_succ_iff_lt_or_eq.mp h with hlt | rfl
    · rw [Function.update_of_ne (by omega)]
      exact ih hlt
    · exact Function.update_self ..

theorem sectorWords_getD (buffer : Nat → UInt16) (i : Nat) {j : Nat} (hj : j < 256) :
    (sectorWords buffer i).getD j 0 = buffer (i * 256 + j) := by
  rw [sectorWords, List.getD_eq_getElem?_getD, List.getElem?_map, List.getElem?_range hj]
  rfl

/-- Each interrupt was the one waited for. -/
def matched (irqs : List Irq) : List (Irq × Irq) := irqs.map fun irq => (irq, irq)

theorem matched_range_succ (irq : Nat → Irq) (k : Nat) :
    matched ((List.range (k + 1)).map irq) =
      matched ((List.range k).map irq) ++ [(irq k, irq k)] := by
  rw [matched, List.range_succ, List.map_append, List.map_append]
  rfl

/-- What is left of `ata_write_lba28` from sector `k` on. -/
def writeFrom (d : AtaDevice) (buffer : Nat → UInt16) (n k : Nat) : List Op :=
  (List.range' k (n - k)).flatMap (writeSector d buffer) ++ flushCache d

/-- What is left of `ata_write_lba28` from word `j` of sector `k` on. -/
def feed (d : AtaDevice) (buffer : Nat → UInt16) (n k j : Nat) : List Op :=
  (List.range' j (256 - j)).map (fun j => .outw d.base (buffer (k * 256 + j))) ++
    .waitFlag d.cable (.stored k) :: .clearFlag d.cable :: writeFrom d buffer n (k + 1)

theorem range'_pop {m k : Nat} (h : k < m) :
    List.range' k (m - k) = k :: List.range' (k + 1) (m - (k + 1)) := by
  rw [show m - k = (m - (k + 1)) + 1 by omega, List.range'_succ]

theorem writeFrom_lt {d : AtaDevice} {buffer : Nat → UInt16} {n k : Nat} (hk : k < n) :
    writeFrom d buffer n k = .waitDataRequest (d.base + 7) :: feed d buffer n k 0 := by
  rw [writeFrom, range'_pop hk, List.flatMap_cons, writeSector, feed, List.range_eq_range',
    writeFrom]
  simp

theorem writeFrom_self (d : AtaDevice) (buffer : Nat → UInt16) (n : Nat) :
    writeFrom d buffer n n = flushCache d := by
  rw [writeFrom, Nat.sub_self]
  rfl

theorem feed_lt {d : AtaDevice} {buffer : Nat → UInt16} {n k j : Nat} (hj : j < 256) :
    feed d buffer n k j = .outw d.base (buffer (k * 256 + j)) :: feed d buffer n k (j + 1) := by
  rw [feed, range'_pop hj]
  rfl

theorem take_succ_sectorWords (buffer : Nat → UInt16) (k : Nat) {j : Nat} (hj : j < 256) :
    (sectorWords buffer k).take j ++ [buffer (k * 256 + j)] =
      (sectorWords buffer k).take (j + 1) := by
  rw [List.take_add_one]
  simp [sectorWords, List.getElem?_range hj]

section Write

variable (d : AtaDevice) (lba n : Nat) (buffer : Nat → UInt16) (v : Drive)
  (log : List (Irq × Irq))

/-- The drive has `k` sectors of the buffer, and is in a given phase. -/
def WritesAt (k : Nat) (phase : DrivePhase) (v' : Drive) : Prop :=
  v' = ⟨phase, written v.disk lba buffer k, v.unreadable⟩

/-- The drive asks for the next sector, if there is one. -/
def Wants (k : Nat) (v' : Drive) : Prop :=
  k = n ∧ WritesAt lba buffer v k .idle v' ∨
    k < n ∧ (WritesAt lba buffer v k (.writePrep lba n k) v' ∨
      WritesAt lba buffer v k (.writeReady lba n k []) v')

/-- The call after its command. -/
inductive Writing (l : Line) : Prop
  | request (k : Nat) (hk : k ≤ n) (hops : l.ops = writeFrom d buffer n k)
      (hlog : l.log = log ++ matched ((List.range k).map .stored))
      (hset : Settled (Wants lba n buffer v k) l)
  | feed (k j : Nat) (hk : k < n) (hj : j < 256) (hops : l.ops = feed d buffer n k j)
      (hlog : l.log = log ++ matched ((List.range k).map .stored))
      (hset : Settled (WritesAt lba buffer v k
        (.writeReady lba n k ((sectorWords buffer k).take j))) l)
  | store (k : Nat) (hk : k < n)
      (hand : Handshake d.cable (.stored k)
        (WritesAt lba buffer v k (.writeBusy lba n k (sectorWords buffer k)))
        (Wants lba n buffer v (k + 1)) (writeFrom d buffer n (k + 1))
        (log ++ matched ((List.range k).map .stored)) l)
  | flush
      (hand : Handshake d.cable .flushed (WritesAt lba buffer v n .flushBusy)
        (WritesAt lba buffer v n .idle) [] (log ++ matched ((List.range n).map .stored)) l)
  | done (hops : l.ops = [])
      (hlog : l.log = log ++ matched ((List.range n).map .stored ++ [.flushed]))
      (hset : Settled (WritesAt lba buffer v n .idle) l)

/-- A drive that wants a sector gets ready for it by itself, and raises no interrupt doing so. -/
theorem wants_stay {k : Nat} {v' v'' : Drive} {irq : Option Irq}
    (h : Wants lba n buffer v k v') (hwork : v'.work = some (v'', irq)) :
    irq = none ∧ Wants lba n buffer v k v'' := by
  rcases h with ⟨_, rfl⟩ | ⟨hn, rfl | rfl⟩
  · cases hwork
  · cases hwork
    exact ⟨rfl, Or.inr ⟨hn, Or.inr rfl⟩⟩
  · cases hwork

/-- When a sector is stored the drive raises the interrupt, and wants the next one if there is
one. -/
theorem raises_stored (k : Nat) (hk : k < n) :
    Raises (.stored k) (WritesAt lba buffer v k (.writeBusy lba n k (sectorWords buffer k)))
      (Wants lba n buffer v (k + 1)) where
  busy v' h := by
    rw [h]
    exact (by decide : (0x80 : UInt8) &&& 0x80 ≠ 0)
  raise v' h := by
    rw [h]
    refine ⟨_, rfl, ?_⟩
    simp only
    split_ifs with hlast
    · exact Or.inl ⟨hlast, rfl⟩
    · exact Or.inr ⟨by omega, Or.inl rfl⟩
  stay _ _ _ := wants_stay lba n buffer v

theorem raises_flushed :
    Raises .flushed (WritesAt lba buffer v n .flushBusy) (WritesAt lba buffer v n .idle) where
  busy v' h := by
    rw [h]
    exact (by decide : (0x80 : UInt8) &&& 0x80 ≠ 0)
  raise v' h := by
    rw [h]
    exact ⟨_, rfl, rfl⟩
  stay v' v'' irq' h hwork := by
    rw [h] at hwork
    cases hwork

variable {d lba n buffer v log} {l l' : Line}

/-- A word of sector `k` goes to the drive. -/
theorem accept_writesAt {k j : Nat} (hj : j < 256) {v' : Drive}
    (h : WritesAt lba buffer v k (.writeReady lba n k ((sectorWords buffer k).take j)) v') :
    WritesAt lba buffer v k (if j = 255 then .writeBusy lba n k (sectorWords buffer k)
      else .writeReady lba n k ((sectorWords buffer k).take (j + 1)))
      (v'.accept (buffer (k * 256 + j))) := by
  have hlen : ((sectorWords buffer k).take j).length = j := by
    rw [List.length_take, sectorWords, List.length_map, List.length_range]
    omega
  rw [h, Drive.accept, WritesAt]
  simp only
  rw [hlen, take_succ_sectorWords buffer k hj]
  split_ifs with hlast
  · rw [List.take_of_length_le (by simp [sectorWords, hlast])]
  · rfl

/-- One step of anybody, by where the call is. In `request` the drive is what decides: the driver
waits for it as long as it prepares the next sector. -/
theorem Writing.step (h : Writing d lba n buffer v log l) (hs : Line.Step d l l') :
    Writing d lba n buffer v log l' ∧ l'.out = l.out ∧ l'.taskFile = l.taskFile := by
  cases h with
  | request k hk hops hlog hset =>
    have hstay := hset.step fun _ _ _ => wants_stay lba n buffer v
    cases hs with
    | handler hpending => exact absurd hpending (hstay.1 _)
    | drive hwork => exact ⟨.request k hk hops hlog (hstay.2 _ _ hwork), rfl, rfl⟩
    | driver hops' hexec =>
      rcases hset.drive with ⟨rfl, hdrive⟩ | ⟨hlt, hdrive⟩
      · -- All sectors are there: the cache is flushed.
        rw [hops, writeFrom_self] at hops'
        cases hops'
        rw [Line.exec, if_pos rfl] at hexec
        cases hexec
        refine ⟨.flush (.waiting rfl hlog (.busy ?_ hset.pending hset.flag)), rfl, rfl⟩
        simp only
        rw [hdrive]
        rfl
      · rw [hops, writeFrom_lt hlt] at hops'
        cases hops'
        rcases hdrive with hdrive | hdrive
        · rw [Line.exec_request_busy (by simp only; rw [hdrive]; rfl)] at hexec
          cases hexec
        · rw [Line.exec_request_ready (by simp only; rw [hdrive]; rfl)] at hexec
          cases hexec
          exact ⟨.feed k 0 hlt (by decide) rfl hlog ⟨hdrive, hset.pending, hset.flag⟩, rfl, rfl⟩
  | feed k j hk hj hops hlog hset =>
    have hstay := hset.step (by
      rintro v' v'' irq h hwork
      rw [h] at hwork
      cases hwork)
    cases hs with
    | handler hpending => exact absurd hpending (hstay.1 _)
    | drive hwork => exact ⟨.feed k j hk hj hops hlog (hstay.2 _ _ hwork), rfl, rfl⟩
    | driver hops' hexec =>
      rw [hops, feed_lt hj] at hops'
      cases hops'
      cases hexec
      have hdrive := accept_writesAt hj hset.drive
      refine ⟨?_, rfl, rfl⟩
      split_ifs at hdrive with hlast
      · subst hlast
        exact .store k hk (.waiting rfl hlog (.busy hdrive hset.pending hset.flag))
      · exact .feed k (j + 1) hk (by omega) rfl hlog ⟨hdrive, hset.pending, hset.flag⟩
  | store k hk hand =>
    obtain ⟨hthen, hout, htf⟩ := hand.step (raises_stored lba n buffer v k hk) hs
    refine ⟨?_, hout, htf⟩
    rcases hthen with hand | ⟨hops, hlog, hset⟩
    · exact .store k hk hand
    · rw [List.append_assoc, ← matched_range_succ] at hlog
      exact .request (k + 1) hk hops hlog hset
  | flush hand =>
    obtain ⟨hthen, hout, htf⟩ := hand.step (raises_flushed lba n buffer v) hs
    refine ⟨?_, hout, htf⟩
    rcases hthen with hand | ⟨hops, hlog, hset⟩
    · exact .flush hand
    · rw [List.append_assoc] at hlog
      refine .done hops (hlog.trans ?_) hset
      simp [matched]
  | done hops hlog hset =>
    obtain ⟨_, _, hops', _⟩ := hset.driver (fun v' h => by rw [h]; rfl) hs
    rw [hops] at hops'
    cases hops'

/-- Until it is done somebody can move. -/
theorem Writing.next (h : Writing d lba n buffer v log l) :
    l.ops = [] ∨ ∃ l', Line.Step d l l' := by
  cases h with
  | request k hk hops hlog hset =>
    right
    rcases hset.drive with ⟨rfl, _⟩ | ⟨hlt, hdrive | hdrive⟩
    · rw [writeFrom_self] at hops
      exact ⟨_, .driver hops rfl⟩
    · exact ⟨_, .drive (by rw [hdrive]; rfl)⟩
    · rw [writeFrom_lt hlt] at hops
      exact ⟨_, .driver hops (Line.exec_request_ready (by simp only; rw [hdrive]; rfl))⟩
  | feed k j hk hj hops hlog hset =>
    rw [feed_lt hj] at hops
    exact Or.inr ⟨_, .driver hops rfl⟩
  | store k hk hand => exact Or.inr (hand.next (raises_stored lba n buffer v k hk))
  | flush hand => exact Or.inr (hand.next (raises_flushed lba n buffer v))
  | done hops _ _ => exact Or.inl hops

/-- Where nothing is left to do, everything has been done. -/
theorem Writing.of_nil (h : Writing d lba n buffer v log l) (hnil : l.ops = []) :
    l.log = log ++ matched ((List.range n).map .stored ++ [.flushed]) ∧
      Settled (WritesAt lba buffer v n .idle) l := by
  cases h with
  | request k hk hops _ _ =>
    rw [hnil] at hops
    exact absurd hops.symm (List.append_ne_nil_of_right_ne_nil _ (List.cons_ne_nil _ _))
  | feed k j _ _ hops _ _ =>
    rw [hnil] at hops
    exact absurd hops.symm (List.append_ne_nil_of_right_ne_nil _ (List.cons_ne_nil _ _))
  | store k _ hand => exact absurd hnil hand.ops_ne_nil
  | flush hand => exact absurd hnil hand.ops_ne_nil
  | done _ hlog hset => exact ⟨hlog, hset⟩

theorem waitFlag_lineOp {irq : Irq} {rest : List Op} (h : ∀ op ∈ rest, LineOp d op) :
    ∀ op ∈ Op.waitFlag d.cable irq :: .clearFlag d.cable :: rest, LineOp d op :=
  List.forall_mem_cons.mpr ⟨.waitFlag irq, List.forall_mem_cons.mpr ⟨.clearFlag, h⟩⟩

theorem flushCache_lineOp : ∀ op ∈ flushCache d, LineOp d op :=
  List.forall_mem_cons.mpr ⟨.command _, waitFlag_lineOp fun _ h => absurd h List.not_mem_nil⟩

theorem writeFrom_lineOp (k : Nat) : ∀ op ∈ writeFrom d buffer n k, LineOp d op := by
  intro op hop
  rcases List.mem_append.mp hop with hop | hop
  · obtain ⟨i, _, hop⟩ := List.mem_flatMap.mp hop
    rcases List.mem_cons.mp hop with rfl | hop
    · exact .waitDataRequest
    rcases List.mem_append.mp hop with hop | hop
    · obtain ⟨j, _, rfl⟩ := List.mem_map.mp hop
      exact .outw _
    · exact waitFlag_lineOp (fun _ h => absurd h List.not_mem_nil) op hop
  · exact flushCache_lineOp op hop

theorem feed_lineOp (k j : Nat) : ∀ op ∈ feed d buffer n k j, LineOp d op := by
  intro op hop
  rcases List.mem_append.mp hop with hop | hop
  · obtain ⟨j, _, rfl⟩ := List.mem_map.mp hop
    exact .outw _
  · exact waitFlag_lineOp (writeFrom_lineOp (k + 1)) op hop

theorem Handshake.lineOp {irq : Irq} {before after : Drive → Prop} {rest : List Op}
    (h : Handshake d.cable irq before after rest log l) (hrest : ∀ op ∈ rest, LineOp d op) :
    ∀ op ∈ l.ops, LineOp d op := by
  cases h with
  | waiting hops _ _ =>
    rw [hops]
    exact waitFlag_lineOp hrest
  | noticed hops _ _ _ _ =>
    rw [hops]
    exact List.forall_mem_cons.mpr ⟨.clearFlag, hrest⟩

theorem Writing.lineOp (h : Writing d lba n buffer v log l) : ∀ op ∈ l.ops, LineOp d op := by
  cases h with
  | request k _ hops _ _ =>
    rw [hops]
    exact writeFrom_lineOp k
  | feed k j _ _ hops _ _ =>
    rw [hops]
    exact feed_lineOp k j
  | store k _ hand => exact hand.lineOp (writeFrom_lineOp (k + 1))
  | flush hand => exact hand.lineOp fun _ h => absurd h List.not_mem_nil
  | done hops _ _ =>
    rw [hops]
    exact fun _ h => absurd h List.not_mem_nil

variable (d lba n buffer v log) in
/-- `ata_write_lba28`, from its start to its end. -/
inductive WriteCall (goal : TaskFile) (out : Nat → UInt16) (l : Line) : Prop
  | beginning (h : Beginning d goal v 0x30 (writeFrom d buffer n 0) out log l)
  | writing (hout : l.out = out) (hgoal : l.taskFile = goal)
      (h : Writing d lba n buffer v log l)

variable {goal : TaskFile} {out : Nat → UInt16}

theorem WriteCall.polite (hgoal : goal.slaveBit = decide (d.slave = 1)) :
    Polite d (WriteCall d lba n buffer v log goal out) where
  ops l h := by
    cases h with
    | beginning h => exact h.lineOp (writeFrom_lineOp 0)
    | writing _ _ h => exact h.lineOp
  talks l h := by
    cases h with
    | beginning h => exact h.talks
    | writing _ htf _ => exact Or.inl (htf ▸ hgoal)

/-- One step of anybody during the call. -/
theorem WriteCall.step (hlba : goal.lba = lba) (hn : goal.sectors = n) (hpos : 0 < n)
    (hrest : v.phase.rests) (h : WriteCall d lba n buffer v log goal out l)
    (hs : Line.Step d l l') : WriteCall d lba n buffer v log goal out l' := by
  cases h with
  | beginning h =>
    rcases h.step hrest hs with h | rfl
    · exact .beginning h
    · have hcommand : v.command goal 0x30 = ⟨.writePrep lba n 0, v.disk, v.unreadable⟩ := by
        rw [Drive.command, if_pos hrest, if_neg (by decide), if_pos rfl, hlba, hn]
      refine .writing rfl rfl (.request 0 (Nat.zero_le n) rfl (List.append_nil log).symm
        ⟨Or.inr ⟨hpos, Or.inl hcommand⟩, rfl, rfl⟩)
  | writing hout htf h =>
    obtain ⟨h, hout', htf'⟩ := h.step hs
    exact .writing (hout'.trans hout) (htf'.trans htf) h

theorem WriteCall.next (hrest : v.phase.rests) (h : WriteCall d lba n buffer v log goal out l) :
    l.ops = [] ∨ ∃ l', Line.Step d l l' := by
  cases h with
  | beginning h => exact Or.inr (h.next hrest)
  | writing _ _ h => exact h.next

end Write

end ScratchOs.Drivers
