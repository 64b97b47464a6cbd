import ScratchOs.Drivers.AtaTransfer

/-!
# Reading sectors

`ata_read_lba28` on a line. The driver waits for an interrupt and then takes 256 words, whatever
the drive has raised it for. The invariant `Reading` holds up to the first sector that the drive
cannot read; what the driver does there is `Ruined`.

A drive raises its interrupt for a sector that it cannot read as well, with an error in the status
register that the driver does not look at. From there on the two are out of step for good: the drive
has ended the command, the driver takes 256 words of nothing and waits for an interrupt that does
not come. The invariant has to stop there, so the step lemma has two outcomes, and only the second
one is about bad sectors (`Reading.step`). Where all sectors are good it has one
(`ReadCall.step_readable`).

Drive and driver count separately, `N` sectors and `n`. They are told the same number in two ways,
and for most sizes the two agree; the lemmas are for both numbers, since the statement about what is
read is for every size.
-/

set_option autoImplicit false

namespace ScratchOs.Drivers

/-- What is left of `ata_read_lba28` from sector `k` on. -/
def readFrom (d : AtaDevice) (n k : Nat) : List Op :=
  (List.range' k (n - k)).flatMap (readSector d)

/-- What is left of `ata_read_lba28` from word `j` of sector `k` on. -/
def drain (d : AtaDevice) (n k j : Nat) : List Op :=
  (List.range' j (256 - j)).map (fun j => .inw d.base (k * 256 + j)) ++ readFrom d n (k + 1)

theorem readFrom_lt {d : AtaDevice} {n k : Nat} (hk : k < n) :
    readFrom d n k = .waitFlag d.cable (.ready k) :: .clearFlag d.cable :: drain d n k 0 := by
  rw [readFrom, range'_pop hk, List.flatMap_cons, readSector, drain, List.range_eq_range',
    readFrom]
  rfl

theorem readFrom_self (d : AtaDevice) (n : Nat) : readFrom d n n = [] := by
  rw [readFrom, Nat.sub_self]
  rfl

theorem drain_lt {d : AtaDevice} {n k j : Nat} (hj : j < 256) :
    drain d n k j = .inw d.base (k * 256 + j) :: drain d n k (j + 1) := by
  rw [drain, range'_pop hj]
  rfl

theorem readFrom_lineOp {d : AtaDevice} {n : Nat} (k : Nat) :
    ∀ op ∈ readFrom d n k, LineOp d op := by
  intro op hop
  obtain ⟨i, _, hop⟩ := List.mem_flatMap.mp hop
  refine waitFlag_lineOp (fun op hop => ?_) op hop
  obtain ⟨j, _, rfl⟩ := List.mem_map.mp hop
  exact .inw _

theorem drain_lineOp {d : AtaDevice} {n : Nat} (k j : Nat) :
    ∀ op ∈ drain d n k j, LineOp d op := by
  intro op hop
  rcases List.mem_append.mp hop with hop | hop
  · obtain ⟨j, _, rfl⟩ := List.mem_map.mp hop
    exact .inw _
  · exact readFrom_lineOp (k + 1) op hop

section Read

variable (d : AtaDevice) (lba N n : Nat) (v : Drive) (out : Nat → UInt16)
  (log : List (Irq × Irq))

/-- The buffer after `m` words. -/
def filled (m : Nat) : Nat → UInt16 := fun i =>
  if i < m then v.disk (lba + i / 256) (i % 256) else out i

/-- The drive in a phase of the reading. Its disk is the one it had: nothing is written. -/
def ReadsAt (phase : DrivePhase) (v' : Drive) : Prop := v' = { v with phase }

/-- The drive is done with looking for sector `k`. -/
def Offers (k : Nat) (v' : Drive) : Prop :=
  ReadsAt v (if v.unreadable (lba + k) then .failed k else .readReady lba N k 0) v'

/-- The call after its command. The drive has been told to read `N` sectors, and the driver
wants `n`; `N` is 256 at most. -/
inductive Reading (l : Line) : Prop
  | command (hops : l.ops = .waitNotBusy (d.base + 7) :: readFrom d n 0) (hlog : l.log = log)
      (hout : l.out = out)
      (hawait : Awaited (.ready 0) (ReadsAt v (.readBusy lba N 0)) (Offers lba N v 0) l)
  | wait (k : Nat) (hk : k < n) (hkN : k < N) (hgood : ∀ i < k, v.unreadable (lba + i) = false)
      (hout : l.out = filled lba v out (k * 256))
      (hand : Handshake d.cable (.ready k) (ReadsAt v (.readBusy lba N k)) (Offers lba N v k)
        (drain d n k 0) (log ++ matched ((List.range k).map .ready)) l)
  | drain (k j : Nat) (hk : k < n) (hkN : k < N) (hj : j < 256)
      (hgood : ∀ i < k + 1, v.unreadable (lba + i) = false) (hops : l.ops = drain d n k j)
      (hlog : l.log = log ++ matched ((List.range (k + 1)).map .ready))
      (hout : l.out = filled lba v out (k * 256 + j))
      (hset : Settled (ReadsAt v (.readReady lba N k j)) l)
  | starve (hN : N < n) (hgood : ∀ i < N, v.unreadable (lba + i) = false)
      (hops : l.ops = readFrom d n N) (hset : Settled (ReadsAt v .idle) l)
  | done (hgood : ∀ i < n, v.unreadable (lba + i) = false) (hops : l.ops = [])
      (hlog : l.log = log ++ matched ((List.range n).map .ready))
      (hout : l.out = filled lba v out (n * 256))
      (hset : n = 0 ∨ Settled (ReadsAt v .idle) l)

/-- The driver is about to take the words of a sector that the drive has not got. -/
structure Ruined (k : Nat) (l : Line) : Prop where
  wanted : k < n ∧ k < N
  bad : v.unreadable (lba + k) = true
  ops : l.ops = Drivers.drain d n k 0
  drive : ReadsAt v (.failed k) l.drive

/-- The interrupt comes for a sector that could not be read as well. -/
theorem raises_ready (k : Nat) :
    Raises (.ready k) (ReadsAt v (.readBusy lba N k)) (Offers lba N v k) where
  busy v' h := by
    rw [h]
    exact (by decide : (0x80 : UInt8) &&& 0x80 ≠ 0)
  raise v' h := by
    rw [h]
    exact ⟨_, rfl, rfl⟩
  stay v' v'' irq' h hwork := by
    rw [h] at hwork
    split_ifs at hwork <;> cases hwork

/-- One word more, at the place the driver stores it. -/
theorem filled_succ {k j : Nat} (hj : j < 256) :
    Function.update (filled lba v out (k * 256 + j)) (k * 256 + j) (v.disk (lba + k) j) =
      filled lba v out (k * 256 + (j + 1)) := by
  funext i
  rcases eq_or_ne i (k * 256 + j) with rfl | hne
  · have hdiv : (k * 256 + j) / 256 = k := by omega
    have hmod : (k * 256 + j) % 256 = j := by omega
    rw [Function.update_self, filled, if_pos (by omega), hdiv, hmod]
  · rw [Function.update_of_ne hne]
    unfold filled
    by_cases hlt : i < k * 256 + j
    · rw [if_pos hlt, if_pos (by omega)]
    · rw [if_neg hlt, if_neg (by omega)]

variable {d lba N n v out log} {l l' : Line}

/-- Of the waiting: past the command, or past a sector, the driver waits for sector `k` next. -/
theorem Reading.next_sector {k : Nat} (hn : n < N → n = 0) (hk : k ≤ n) (hkN : k ≤ N)
    (hgood : ∀ i < k, v.unreadable (lba + i) = false) (hops : l.ops = readFrom d n k)
    (hlog : l.log = log ++ matched ((List.range k).map .ready))
    (hout : l.out = filled lba v out (k * 256))
    (hmore : k < N → Awaited (.ready k) (ReadsAt v (.readBusy lba N k)) (Offers lba N v k) l)
    (hlast : k = N → Settled (ReadsAt v .idle) l) : Reading d lba N n v out log l := by
  rcases Nat.lt_or_ge k n with hlt | hge
  · rcases Nat.lt_or_ge k N with hltN | hgeN
    · rw [readFrom_lt hlt] at hops
      exact .wait k hlt hltN hgood hout (.waiting hops hlog (hmore hltN))
    · obtain rfl : k = N := by omega
      exact .starve hlt hgood hops (hlast rfl)
  · obtain rfl : k = n := by omega
    rw [readFrom_self] at hops
    refine .done hgood hops hlog hout ?_
    rcases eq_or_ne N k with heq | hne
    · exact Or.inr (hlast heq.symm)
    · exact Or.inl (hn (by omega))

/-- Past the interrupt for sector `k`: it is there to be taken, if it could be read. -/
theorem Reading.answered {k : Nat} (hk : k < n) (hkN : k < N)
    (hgood : ∀ i < k, v.unreadable (lba + i) = false) (hops : l.ops = Drivers.drain d n k 0)
    (hlog : l.log = log ++ matched ((List.range (k + 1)).map .ready))
    (hout : l.out = filled lba v out (k * 256)) (hset : Settled (Offers lba N v k) l) :
    Reading d lba N n v out log l ∨ Ruined d lba N n v k l := by
  obtain ⟨hdrive, hpending, hflag⟩ := hset
  rcases hbad : v.unreadable (lba + k) with _ | _
  · rw [Offers, hbad] at hdrive
    refine Or.inl (.drain k 0 hk hkN (by decide) (fun i hi => ?_) hops hlog
      (by rw [hout, Nat.add_zero]) ⟨hdrive, hpending, hflag⟩)
    rcases Nat.lt_succ_iff_lt_or_eq.mp hi with hi | rfl
    · exact hgood i hi
    · exact hbad
  · rw [Offers, hbad] at hdrive
    exact Or.inr ⟨⟨hk, hkN⟩, hbad, hops, hdrive⟩

/-- The driver takes word `j` of sector `k`. -/
theorem Reading.took {k j : Nat} {op : Op} {rest : List Op} (hn : n < N → n = 0) (hk : k < n)
    (hkN : k < N) (hj : j < 256) (hgood : ∀ i < k + 1, v.unreadable (lba + i) = false)
    (hops : l.ops = Drivers.drain d n k j)
    (hlog : l.log = log ++ matched ((List.range (k + 1)).map .ready))
    (hout : l.out = filled lba v out (k * 256 + j))
    (hset : Settled (ReadsAt v (.readReady lba N k j)) l) (hops' : l.ops = op :: rest)
    (hexec : Line.exec d { l with ops := rest } op = some l') :
    Reading d lba N n v out log l' ∧ l'.taskFile = l.taskFile := by
  rw [hops, drain_lt hj] at hops'
  cases hops'
  cases hexec
  have hsupply : l.drive.supply = (v.disk (lba + k) j, { v with
      phase := if j ≠ 255 then .readReady lba N k (j + 1)
        else if k + 1 = N then .idle else .readBusy lba N (k + 1) }) := by
    rw [hset.drive]
    rfl
  rw [hsupply, hout, filled_succ lba v out hj]
  refine ⟨?_, rfl⟩
  rcases eq_or_ne j 255 with rfl | hne
  · -- The sector is all there, and the drive goes on to the next.
    rw [if_neg (by simp)]
    refine Reading.next_sector hn hk hkN hgood rfl hlog
      (congrArg (filled lba v out) (by omega)) (fun hlt => ?_) fun heq => ?_
    · rw [if_neg (by omega)]
      exact .busy rfl hset.pending hset.flag
    · rw [if_pos heq]
      exact ⟨rfl, hset.pending, hset.flag⟩
  · rw [if_pos hne]
    exact .drain k (j + 1) hk hkN (by omega) hgood rfl hlog rfl ⟨rfl, hset.pending, hset.flag⟩

/-- A step of anybody; only at a sector that the drive cannot read does the invariant end. `N` is
more than `n` only where `n` is 0: the drive takes a count of 0 for 256. -/
theorem Reading.step (hN : 0 < N) (hn : n < N → n = 0)
    (h : Reading d lba N n v out log l) (hs : Line.Step d l l') :
    (Reading d lba N n v out log l' ∨ ∃ k, Ruined d lba N n v k l' ∧
      l'.out = filled lba v out (k * 256)) ∧ l'.taskFile = l.taskFile := by
  cases h with
  | command hops hlog hout hawait =>
    have hr := raises_ready lba N v 0
    cases hs with
    | handler hpending =>
      exact ⟨Or.inl (.command hops hlog hout ((hawait.step hr).1 _ hpending)), rfl⟩
    | drive hwork => exact ⟨Or.inl (.command hops hlog hout ((hawait.step hr).2 _ _ hwork)), rfl⟩
    | driver hops' hexec =>
      rw [hops] at hops'
      cases hops'
      rw [Line.exec] at hexec
      split_ifs at hexec
      cases hexec
      have hout' : l.out = filled lba v out (0 * 256) := by
        rw [hout]
        funext i
        exact (if_neg (by omega)).symm
      refine ⟨Or.inl (Reading.next_sector hn (Nat.zero_le n) (Nat.zero_le N)
        (fun i hi => absurd hi (Nat.not_lt_zero i)) rfl (hlog.trans (List.append_nil log).symm)
        hout' (fun _ => ?_) fun h => ?_), rfl⟩
      · cases hawait with
        | busy hdrive hpending hflag => exact .busy hdrive hpending hflag
        | raised hdrive hpending hflag => exact .raised hdrive hpending hflag
        | flagged hdrive hpending hflag => exact .flagged hdrive hpending hflag
      · omega
  | wait k hk hkN hgood hout hand =>
    obtain ⟨hthen, hout', htf⟩ := hand.step (raises_ready lba N v k) hs
    refine ⟨?_, htf⟩
    rcases hthen with hand | ⟨hops, hlog, hset⟩
    · exact Or.inl (.wait k hk hkN hgood (hout'.trans hout) hand)
    · rw [List.append_assoc, ← matched_range_succ] at hlog
      have hanswer := Reading.answered hk hkN hgood hops hlog (hout'.trans hout) hset
      exact hanswer.imp id fun hruin => ⟨k, hruin, hout'.trans hout⟩
  | drain k j hk hkN hj hgood hops hlog hout hset =>
    obtain ⟨_, _, hops', hexec⟩ := hset.driver (fun v' h => by rw [h]; rfl) hs
    obtain ⟨htook, htf⟩ := Reading.took hn hk hkN hj hgood hops hlog hout hset hops' hexec
    exact ⟨Or.inl htook, htf⟩
  | starve hlt hgood hops hset =>
    obtain ⟨_, _, hops', hexec⟩ := hset.driver (fun v' h => by rw [h]; rfl) hs
    rw [hops, readFrom_lt hlt] at hops'
    cases hops'
    rw [Line.exec] at hexec
    simp only [hset.flag, Option.map_none] at hexec
    cases hexec
  | done hgood hops hlog hout hset =>
    cases hs with
    | driver hops' _ =>
      rw [hops] at hops'
      cases hops'
    | handler hpending =>
      refine ⟨Or.inl (.done hgood hops hlog hout (hset.imp id fun h => ?_)), rfl⟩
      rw [h.pending] at hpending
      cases hpending
    | drive hwork =>
      refine ⟨Or.inl (.done hgood hops hlog hout (hset.imp id fun h => ?_)), rfl⟩
      rw [h.drive] at hwork
      cases hwork

/-- Where nothing is left to do, the driver has all of its sectors. -/
theorem Reading.of_nil (h : Reading d lba N n v out log l) (hnil : l.ops = []) :
    l.log = log ++ matched ((List.range n).map .ready) ∧
      l.out = filled lba v out (n * 256) ∧ (n ≠ 0 → Settled (ReadsAt v .idle) l) := by
  cases h with
  | command hops _ _ _ =>
    rw [hnil] at hops
    cases hops
  | wait k _ _ _ _ hand => exact absurd hnil hand.ops_ne_nil
  | drain k j _ _ hj _ hops _ _ _ =>
    rw [hnil, drain_lt hj] at hops
    cases hops
  | starve hN _ hops _ =>
    rw [hnil, readFrom_lt hN] at hops
    cases hops
  | done _ _ hlog hout hset => exact ⟨hlog, hout, fun hn => hset.resolve_left hn⟩

theorem Reading.lineOp (h : Reading d lba N n v out log l) : ∀ op ∈ l.ops, LineOp d op := by
  cases h with
  | command hops _ _ _ =>
    rw [hops]
    exact List.forall_mem_cons.mpr ⟨.waitNotBusy, readFrom_lineOp 0⟩
  | wait k _ _ _ _ hand => exact hand.lineOp (drain_lineOp k 0)
  | drain k j _ _ _ _ hops _ _ _ =>
    rw [hops]
    exact drain_lineOp k j
  | starve _ _ hops _ =>
    rw [hops]
    exact readFrom_lineOp N
  | done _ hops _ _ _ =>
    rw [hops]
    exact fun _ h => absurd h List.not_mem_nil

/-- Who can move; where nobody can, the sectors that were to be read were all good. -/
theorem Reading.next (h : Reading d lba N n v out log l) :
    (∃ l', Line.Step d l l') ∨
      (l.ops = [] ∨ N < n) ∧ ∀ i < min n N, v.unreadable (lba + i) = false := by
  cases h with
  | command hops _ _ hawait =>
    left
    cases hawait with
    | busy hdrive _ _ => exact ⟨_, .drive (by rw [hdrive]; rfl)⟩
    | raised _ hpending _ => exact ⟨_, .handler hpending⟩
    | flagged hdrive _ _ =>
      refine ⟨_, .driver hops (if_neg ?_)⟩
      rw [hdrive]
      rcases v.unreadable (lba + 0) with _ | _
      · exact not_not.mpr (by decide : (0x48 : UInt8) &&& 0x80 = 0)
      · exact not_not.mpr (by decide : (0x41 : UInt8) &&& 0x80 = 0)
  | wait k _ _ _ _ hand => exact Or.inl (hand.next (raises_ready lba N v k))
  | drain k j _ _ hj _ hops _ _ _ =>
    rw [drain_lt hj] at hops
    exact Or.inl ⟨_, .driver hops rfl⟩
  | starve hN hgood _ _ => exact Or.inr ⟨Or.inr hN, fun i hi => hgood i (by omega)⟩
  | done hgood hops _ _ _ => exact Or.inr ⟨Or.inl hops, fun i hi => hgood i (by omega)⟩

variable (d lba N n v out log) in
/-- `ata_read_lba28`, from its start. -/
inductive ReadCall (goal : TaskFile) (l : Line) : Prop
  | beginning (h : Beginning d goal v 0x20 (.waitNotBusy (d.base + 7) :: readFrom d n 0) out log l)
  | reading (hgoal : l.taskFile = goal) (h : Reading d lba N n v out log l)

variable {goal : TaskFile}

/-- The call stays on its own ports, and talks to its own drive. -/
theorem ReadCall.polite (hgoal : goal.slaveBit = decide (d.slave = 1)) :
    Polite d (ReadCall d lba N n v out log goal) where
  ops l h := by
    cases h with
    | beginning h => exact h.lineOp (List.forall_mem_cons.mpr ⟨.waitNotBusy, readFrom_lineOp 0⟩)
    | reading _ h => exact h.lineOp
  talks l h := by
    cases h with
    | beginning h => exact h.talks
    | reading htf _ => exact Or.inl (htf ▸ hgoal)

/-- One step of anybody during the call. -/
theorem ReadCall.step (hlba : goal.lba = lba) (hN : goal.sectors = N) (hpos : 0 < N)
    (hn : n < N → n = 0) (hrest : v.phase.rests)
    (h : ReadCall d lba N n v out log goal l) (hs : Line.Step d l l') :
    ReadCall d lba N n v out log goal l' ∨ ∃ k, Ruined d lba N n v k l' ∧
      l'.out = filled lba v out (k * 256) := by
  cases h with
  | beginning h =>
    left
    rcases h.step hrest hs with h | rfl
    · exact .beginning h
    · have hcommand : v.command goal 0x20 = { v with phase := .readBusy lba N 0 } := by
        rw [Drive.command, if_pos hrest, if_pos rfl, hlba, hN]
      exact .reading rfl (.command rfl rfl rfl (.busy hcommand rfl rfl))
  | reading htf h =>
    obtain ⟨h, htf'⟩ := h.step hpos hn hs
    exact h.imp (.reading (htf'.trans htf)) id

/-- Where the drive can read the sectors that are to be read, no step ends the invariant. -/
theorem ReadCall.step_readable (hlba : goal.lba = lba) (hN : goal.sectors = N) (hpos : 0 < N)
    (hn : n < N → n = 0) (hrest : v.phase.rests)
    (hgood : ∀ k < min n N, v.unreadable (lba + k) = false)
    (h : ReadCall d lba N n v out log goal l) (hs : Line.Step d l l') :
    ReadCall d lba N n v out log goal l' := by
  refine (h.step hlba hN hpos hn hrest hs).resolve_right ?_
  rintro ⟨k, hruined, _⟩
  have hbad := hruined.bad
  rw [hgood k (lt_min hruined.wanted.1 hruined.wanted.2)] at hbad
  cases hbad

theorem ReadCall.next (hrest : v.phase.rests) (h : ReadCall d lba N n v out log goal l) :
    (∃ l', Line.Step d l l') ∨
      (l.ops = [] ∨ N < n) ∧ ∀ i < min n N, v.unreadable (lba + i) = false := by
  cases h with
  | beginning h => exact Or.inl (h.next hrest)
  | reading _ h => exact h.next

/-- What holds of the data port and of the buffer up to the first bad sector. -/
structure Sound (v : Drive) (out : Nat → UInt16) (l : Line) : Prop where
  offered : ∀ port index rest, l.ops = .inw port index :: rest →
    ∃ lba N, l.drive.phase = .readReady lba N (index / 256) (index % 256)
  kept : ∀ k, l.drive.phase = .failed k → ∀ i, k * 256 ≤ i → l.out i = out i

theorem filled_ge {m i : Nat} (h : m ≤ i) : filled lba v out m i = out i := if_neg (by omega)

theorem ReadsAt.not_failed {phase : DrivePhase} {v' : Drive} (h : ReadsAt v phase v')
    (hphase : ∀ k, phase ≠ .failed k) {k : Nat} : v'.phase ≠ .failed k := by
  rw [h]
  exact hphase k

/-- A drive that has failed while it looks for sector `k` has failed at `k`. -/
theorem Offers.failed {k k' : Nat} {v' : Drive} (h : Offers lba N v k v')
    (hphase : v'.phase = .failed k') : k = k' := by
  rw [h] at hphase
  simp only at hphase
  split_ifs at hphase
  exact DrivePhase.failed.inj hphase

/-- Before the command nothing is read. -/
theorem Beginning.sound {command : UInt8} {rest : List Op} {goal : TaskFile}
    (h : Beginning d goal v command rest out log l) : Sound v out l := by
  refine ⟨fun port index rest' hnext => ?_, fun k _ i _ => by rw [h.out]⟩
  obtain ⟨pre, hops, hsetup⟩ := h.ops
  rw [hops] at hnext
  generalize l.taskFile = tf at hsetup
  generalize l.flag = flag at hsetup
  cases hsetup with
  | done _ => cases hnext
  | register _ _ => cases hnext
  | waitNotBusy _ _ => cases hnext
  | clearFlag _ _ => cases hnext

/-- By where the call is: the data port is next only in `drain`, where the drive has that word; and
a drive has failed only in `wait`, where the buffer holds the sectors before. -/
theorem Reading.sound (h : Reading d lba N n v out log l) : Sound v out l := by
  cases h with
  | command hops _ hout _ =>
    refine ⟨fun port index rest hnext => ?_, fun k _ i _ => by rw [hout]⟩
    rw [hops] at hnext
    cases hnext
  | wait k _ _ _ hout hand =>
    have hfailed : ∀ k', l.drive.phase = .failed k' → k = k' := by
      intro k' hphase
      cases hand with
      | waiting _ _ hawait =>
        cases hawait with
        | busy hdrive _ _ => exact absurd hphase (hdrive.not_failed fun _ => by simp)
        | raised hdrive _ _ => exact hdrive.failed hphase
        | flagged hdrive _ _ => exact hdrive.failed hphase
      | noticed _ _ hdrive _ _ => exact hdrive.failed hphase
    refine ⟨fun port index rest hnext => ?_, fun k' hphase i hi => ?_⟩
    · cases hand with
      | waiting hops _ _ =>
        rw [hops] at hnext
        cases hnext
      | noticed hops _ _ _ _ =>
        rw [hops] at hnext
        cases hnext
    · obtain rfl := hfailed k' hphase
      rw [hout, filled_ge hi]
  | drain k j _ _ hj _ hops _ _ hset =>
    refine ⟨fun port index rest hnext => ?_, fun k' hphase => ?_⟩
    · rw [hops, drain_lt hj] at hnext
      cases hnext
      have hdiv : (k * 256 + j) / 256 = k := by omega
      have hmod : (k * 256 + j) % 256 = j := by omega
      rw [hset.drive, hdiv, hmod]
      exact ⟨lba, N, rfl⟩
    · exact absurd hphase (hset.drive.not_failed fun _ => by simp)
  | starve hN _ hops hset =>
    refine ⟨fun port index rest hnext => ?_, fun k' hphase => ?_⟩
    · rw [hops, readFrom_lt hN] at hnext
      cases hnext
    · exact absurd hphase (hset.drive.not_failed fun _ => by simp)
  | done _ hops _ hout hset =>
    refine ⟨fun port index rest hnext => ?_, fun k' hphase i _ => ?_⟩
    · rw [hops] at hnext
      cases hnext
    · rcases hset with rfl | hset
      · rw [hout, Nat.zero_mul, filled_ge (Nat.zero_le i)]
      · exact absurd hphase (hset.drive.not_failed fun _ => by simp)

theorem ReadCall.sound (h : ReadCall d lba N n v out log goal l) : Sound v out l := by
  cases h with
  | beginning h => exact h.sound
  | reading _ h => exact h.sound

end Read

end ScratchOs.Drivers
