import ScratchOs.Cpu.Interrupts

/-!
# Repeated EOIs

Each interrupt is acknowledged by `irq_handler`, and once more by its handler. Between two
instructions there is either nothing in service, or `irq_handler` is at work on what it has just
been called for, with the flag clear: so the second EOI finds nothing, whatever else has been
accepted in between.

The second EOI would be a mistake on its own. A non-specific EOI takes whatever has the highest
priority, and if another interrupt were in service at that moment it would be dismissed while its
handler runs. What prevents it is not in the handlers: `irq_handler` sends its EOIs before it calls
them, and with interrupts off. The invariant says exactly that, and it would not survive moving the
call in front of the EOIs.

Spurious interrupts are in the model since they break the symmetry: the master's sets no bit, the
slave's sets one in the master only, and `irq_handler` sends its EOIs in both cases.
-/

set_option autoImplicit false

namespace ScratchOs.Cpu

/-! ## The registers -/

def Pic.Clear (p : Pic) : Prop :=
  ∀ chip i, p.inService chip i = none

theorem dismiss_of_none {bits : Fin 8 → Option Nat} (h : ∀ i, bits i = none) :
    dismiss bits = bits := by
  have hfind : (List.finRange 8).find? (fun i => (bits i).isSome) = none := by
    rw [List.find?_eq_none]
    intro i _
    rw [h i]
    decide
  rw [dismiss, hfind]

/-- The only bit there is. -/
theorem dismiss_update {bits : Fin 8 → Option Nat} (h : ∀ i, bits i = none) (i : Fin 8) (k : Nat) :
    dismiss (Function.update bits i (some k)) = bits := by
  cases hfind : (List.finRange 8).find? fun j => (Function.update bits i (some k) j).isSome with
  | none =>
    have hi := List.find?_eq_none.mp hfind i (List.mem_finRange i)
    rw [Function.update_self] at hi
    exact absurd rfl hi
  | some j =>
    have hj := List.find?_some hfind
    have hji : j = i := by
      by_contra hne
      rw [Function.update_of_ne hne, h j] at hj
      cases hj
    rw [dismiss, hfind, hji]
    simp only [Function.update_idem]
    rw [← h i, Function.update_eq_self]

theorem dismiss_le (bits : Fin 8 → Option Nat) (i : Fin 8) :
    dismiss bits i = none ∨ dismiss bits i = bits i := by
  unfold dismiss
  cases (List.finRange 8).find? fun j => (bits j).isSome with
  | none => exact Or.inr rfl
  | some j =>
    by_cases hij : i = j
    · rw [hij]
      exact Or.inl (Function.update_self ..)
    · exact Or.inr (Function.update_of_ne hij ..)

theorem Pic.eoi_self (p : Pic) (chip : Chip) :
    (p.eoi chip).inService chip = dismiss (p.inService chip) :=
  Function.update_self ..

theorem Pic.eoi_of_ne (p : Pic) {chip chip' : Chip} (h : chip' ≠ chip) :
    (p.eoi chip).inService chip' = p.inService chip' :=
  Function.update_of_ne h ..

theorem Pic.eoi_le (p : Pic) (chip chip' : Chip) (i : Fin 8) :
    (p.eoi chip).inService chip' i = none ∨
      (p.eoi chip).inService chip' i = p.inService chip' i := by
  by_cases h : chip' = chip
  · rw [h, p.eoi_self]
    exact dismiss_le _ i
  · rw [p.eoi_of_ne h]
    exact Or.inr rfl

theorem Pic.serve_self (p : Pic) (chip : Chip) (i : Fin 8) (k : Nat) :
    (p.serve chip i k).inService chip = Function.update (p.inService chip) i (some k) :=
  Function.update_self ..

theorem Pic.serve_of_ne (p : Pic) {chip chip' : Chip} (h : chip' ≠ chip) (i : Fin 8) (k : Nat) :
    (p.serve chip i k).inService chip' = p.inService chip' :=
  Function.update_of_ne h ..

theorem Pic.eoi_of_none {p : Pic} {chip : Chip} (h : ∀ i, p.inService chip i = none) :
    p.eoi chip = p := by
  rw [Pic.eoi, dismiss_of_none h, Function.update_eq_self]

theorem Pic.eoi_serve {p : Pic} {chip : Chip} (h : ∀ i, p.inService chip i = none) (i : Fin 8)
    (k : Nat) : (p.serve chip i k).eoi chip = p := by
  simp only [Pic.eoi, Pic.serve, Function.update_self, Function.update_idem]
  rw [dismiss_update h, Function.update_eq_self]

/-- What an interrupt sets, the EOIs of `irq_handler` take back. -/
theorem Pic.Clear.acknowledged {p : Pic} (h : p.Clear) (irq : Fin 16) (spurious : Bool) (k : Nat) :
    (Code.sendEoi irq).foldl Pic.eoi (p.acknowledge irq spurious k) = p := by
  unfold Code.sendEoi Pic.acknowledge
  by_cases hirq : irq.val < 8
  · rw [dif_pos hirq, if_neg (Nat.not_le_of_lt hirq)]
    cases spurious with
    | true => exact Pic.eoi_of_none (h .master)
    | false => exact Pic.eoi_serve (h .master) _ k
  · rw [dif_neg hirq, if_pos (Nat.le_of_not_lt hirq)]
    -- The slave's register is still what it was.
    have hslave : ∀ i, (p.serve .master 2 k).inService .slave i = none := by
      intro i
      rw [p.serve_of_ne (show Chip.slave ≠ .master by decide)]
      exact h .slave i
    cases spurious with
    | true =>
      show ((p.serve .master 2 k).eoi .slave).eoi .master = p
      rw [Pic.eoi_of_none hslave, Pic.eoi_serve (h .master)]
    | false =>
      show (((p.serve .master 2 k).serve .slave _ k).eoi .slave).eoi .master = p
      rw [Pic.eoi_serve hslave, Pic.eoi_serve (h .master)]

theorem Pic.Clear.acknowledge_owner {p : Pic} (h : p.Clear) (irq : Fin 16) (spurious : Bool)
    (k : Nat) (chip : Chip) (i : Fin 8) :
    (p.acknowledge irq spurious k).inService chip i = none ∨
      (p.acknowledge irq spurious k).inService chip i = some k := by
  have hserve : ∀ (q : Pic) (chip' : Chip) (j : Fin 8),
      q.inService chip i = none ∨ q.inService chip i = some k →
      (q.serve chip' j k).inService chip i = none ∨ (q.serve chip' j k).inService chip i = some k := by
    intro q chip' j hq
    by_cases hchip : chip = chip'
    · subst hchip
      rw [q.serve_self]
      by_cases hj : i = j
      · rw [hj, Function.update_self]
        exact Or.inr rfl
      · rw [Function.update_of_ne hj]
        exact hq
    · rw [q.serve_of_ne hchip]
      exact hq
  have hp := Or.inl (b := p.inService chip i = some k) (h chip i)
  unfold Pic.acknowledge
  split_ifs
  · exact hp
  · exact hserve p .master _ hp
  · exact hserve p .master _ hp
  · exact hserve _ .slave _ (hserve p .master _ hp)

/-! ## The invariant -/

/-- `irq_handler` still has EOIs to send, for the interrupt on top of the stack. -/
structure State.Acknowledging (s : State) (eois : List Chip) (irq : Fin 16) (k : Nat) : Prop where
  flag : s.flag = false
  top : ∃ sections rest, s.frames =
    ⟨eois.map .eoi ++ [.callHandler irq], some k, sections⟩ :: rest
  owed : (eois.foldl Pic.eoi s.pic).Clear
  own : ∀ chip i, s.pic.inService chip i = none ∨ s.pic.inService chip i = some k

def State.Served (s : State) : Prop :=
  s.pic.Clear ∨ ∃ eois irq k, s.Acknowledging eois irq k

/-- Only an EOI changes the in-service registers from inside. -/
theorem Instr.effect_inService (i : Instr) (s : State) (h : ∀ chip, i ≠ .eoi chip) :
    (i.effect s).pic.inService = s.pic.inService := by
  cases i with
  | eoi chip => exact absurd rfl (h chip)
  | _ => rfl

theorem State.Served.of_clear {s s' : State} (h : s.pic.Clear) (i : Instr)
    (hs' : s'.pic.inService = (i.effect s).pic.inService) : s'.Served := by
  refine Or.inl fun chip j => ?_
  rw [hs']
  by_cases hi : ∃ chip', i = .eoi chip'
  · obtain ⟨chip', rfl⟩ := hi
    show (s.pic.eoi chip').inService chip j = none
    rw [Pic.eoi_of_none (h chip')]
    exact h chip j
  · rw [i.effect_inService s fun chip' hchip => hi ⟨chip', hchip⟩]
    exact h chip j

/-- With nothing in service, an interrupt may come. -/
theorem Pic.Clear.step {s s' : State} (h : s.pic.Clear) (hstep : s.Step s') : s'.Served := by
  cases hstep with
  | @exec i => exact .of_clear h i rfl
  | accept irq spurious =>
    refine Or.inr ⟨Code.sendEoi irq, irq, s.accepted, rfl, ⟨0, s.frames, rfl⟩, ?_,
      h.acknowledge_owner irq spurious s.accepted⟩
    show ((Code.sendEoi irq).foldl Pic.eoi _).Clear
    rw [h.acknowledged]
    exact h
  | iret => exact Or.inl h

theorem State.Served.step {s s' : State} (h : s.Served) (hstep : s.Step s') : s'.Served := by
  rcases h with hclear | ⟨eois, irq, k, hack⟩
  · exact hclear.step hstep
  obtain ⟨sections, rest, htop⟩ := hack.top
  cases eois with
  | nil => exact Pic.Clear.step hack.owed hstep
  | cons chip eois =>
    cases hstep with
    | exec hframes hcalls =>
      -- The next EOI of `irq_handler`.
      rw [htop] at hframes
      cases hframes
      cases hcalls
      refine Or.inr ⟨eois, irq, k, hack.flag, ⟨sections, rest, rfl⟩, hack.owed, fun chip' i => ?_⟩
      rcases s.pic.eoi_le chip chip' i with hnone | hsame
      · exact Or.inl hnone
      · have hown := hack.own chip' i
        rw [← hsame] at hown
        exact hown
    | accept irq spurious hflag => cases hack.flag.symm.trans hflag
    | iret hframes =>
      rw [htop] at hframes
      cases hframes

theorem State.Reachable.served {drives : Fin 4 → Code.Probe} {mask : Fin 16 → Bool} {s : State}
    (h : s.Reachable drives mask) : s.Served := by
  induction h with
  | refl => exact Or.inl fun _ _ => rfl
  | tail _ hstep ih => exact ih.step hstep

/-! ## What an EOI can dismiss -/

/-- In-service bits go only with the EOI of the interrupt they belong to, which is on top of the
stack. -/
def State.OwnEoisOnly (s : State) : Prop :=
  ∀ s', s.Step s' → ∀ chip i k, s.pic.inService chip i = some k →
    s'.pic.inService chip i = some k ∨
      ∃ code sections rest, s.frames = ⟨.eoi chip :: code, some k, sections⟩ :: rest

/-- **No EOI dismisses another interrupt.** When the flag is set nothing is in service; when a
handler is called, nothing of its own interrupt is; and what an EOI takes is its own. -/
theorem eois_dismiss_own {drives : Fin 4 → Code.Probe} {mask : Fin 16 → Bool} {s : State}
    (h : s.Reachable drives mask) :
    (s.flag = true → s.pic.Clear) ∧
      (∀ irq code k sections rest,
        s.frames = ⟨.callHandler irq :: code, some k, sections⟩ :: rest →
        ∀ chip i, s.pic.inService chip i ≠ some k) ∧
      s.OwnEoisOnly := by
  rcases h.served with hclear | ⟨eois, irq, k, hack⟩
  · refine ⟨fun _ => hclear, fun _ _ k _ _ _ chip i hbit => ?_, fun s' _ chip i k hbit => ?_⟩
    · cases (hclear chip i).symm.trans hbit
    · cases (hclear chip i).symm.trans hbit
  · obtain ⟨sections, rest, htop⟩ := hack.top
    refine ⟨fun hflag => ?_, fun irq' code k' sections' rest' hframes chip i hbit => ?_,
      fun s' hstep chip i k' hbit => ?_⟩
    · cases hack.flag.symm.trans hflag
    · cases eois with
      | nil => cases (hack.owed chip i).symm.trans hbit
      | cons chip' eois =>
        rw [htop] at hframes
        cases hframes
    · cases eois with
      | nil => cases (hack.owed chip i).symm.trans hbit
      | cons chip' eois =>
        have hk : k' = k := by
          rcases hack.own chip i with hnone | hsome
          · cases hnone.symm.trans hbit
          · cases hsome.symm.trans hbit
            rfl
        subst hk
        cases hstep with
        | exec hframes hcalls =>
          have hsame := htop
          rw [htop] at hframes
          cases hframes
          cases hcalls
          by_cases hchip : chip = chip'
          · subst hchip
            exact Or.inr ⟨_, _, _, hsame⟩
          · refine Or.inl ?_
            show (s.pic.eoi chip').inService chip i = _
            rw [s.pic.eoi_of_ne hchip]
            exact hbit
        | accept irq spurious hflag => cases hack.flag.symm.trans hflag
        | iret hframes =>
          rw [htop] at hframes
          cases hframes

/-- An interrupt of the primary channel right after `set_idt`, and the EOIs of `irq_handler`. -/
theorem eois_dismiss_own_fourteen : ∃ s : State,
    (∃ code rest, s.frames = ⟨.callHandler 14 :: code, some 0, 0⟩ :: rest) ∧
      (s.flag = true → s.pic.Clear) ∧ s.OwnEoisOnly := by
  have hstart : State.Steps (.boot (fun _ => .silent) fun _ => false) _ :=
    (((Relation.ReflTransGen.single (.exec rfl (.plain rfl))).tail (.exec rfl (.plain rfl))).tail
      (.exec rfl (.plain rfl))).tail (.exec rfl (.plain rfl))
  have hreach := ((hstart.tail (.accept 14 false rfl ⟨rfl, fun _ => rfl⟩)).tail
    (.exec rfl (.plain rfl))).tail (.exec rfl (.plain rfl))
  exact ⟨_, ⟨_, _, rfl⟩, (eois_dismiss_own hreach).1, (eois_dismiss_own hreach).2.2⟩

end ScratchOs.Cpu
