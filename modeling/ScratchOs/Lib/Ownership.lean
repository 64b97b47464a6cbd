import Mathlib.Data.List.Basic
import Mathlib.Logic.Function.Basic
import Mathlib.Tactic.Common

/-!
# Sole ownership

Holders hold at most one handle each. A handle is handed to a holder, moves from holder to
holder, and in the end is either destroyed and freed, or released to somebody else. The log has
every hand-over and everything that is part of an end, but no move.

`Owned` says that nobody shares: a handle has one holder at most, and in the log every
hand-over of it is ended exactly once before the next, except the last one of a handle that is
held. What keeps it is `Owned.take`, `Owned.drop` and `Owned.move`.

An end by deletion is two events and not one, since it is two calls in a program, and either of
them may be missing or come twice. A log that has them apart is one that the calls can write
themselves: whoever calls the destructor notes that, and so does whoever frees. The price is that
an end is a list (`Ends`), and that `Owned.drop` puts the whole of it into the log; what comes in
between is nobody's to look at.
-/

set_option autoImplicit false

namespace ScratchOs.Ownership

/-- What happens to a handle, but for moves. -/
inductive Event (H : Type) where
  | handed (h : H)
  | released (h : H)
  | destroyed (h : H)
  | freed (h : H)
deriving DecidableEq

section

variable {ι H : Type} [DecidableEq ι] [DecidableEq H]

/-- Whom an event is about. -/
def Event.handle : Event H → H
  | .handed h => h
  | .released h => h
  | .destroyed h => h
  | .freed h => h

/-- The events end an ownership of `h`: it goes back to the program, or it is destroyed and its
memory freed, in that order and with nothing about `h` between. -/
def Ends (h : H) (es : List (Event H)) : Prop :=
  es = [.released h] ∨ es = [.destroyed h, .freed h]

omit [DecidableEq H] in
theorem Ends.handle_eq {h : H} {es : List (Event H)} (hes : Ends h es) :
    ∀ e ∈ es, e.handle = h := by
  intro e he
  rcases hes with rfl | rfl
  · rw [List.mem_singleton.mp he]
    rfl
  · rcases List.mem_pair.mp he with rfl | rfl
    · rfl
    · rfl

/-- The part of a log that is about `h`. -/
def about (log : List (Event H)) (h : H) : List (Event H) := log.filter fun e => e.handle = h

theorem about_append_same (log : List (Event H)) {es : List (Event H)} {h : H}
    (hes : ∀ e ∈ es, e.handle = h) : about (log ++ es) h = about log h ++ es := by
  rw [about, List.filter_append, List.filter_eq_self.mpr fun e he => decide_eq_true (hes e he)]
  rfl

theorem about_append_other (log : List (Event H)) {es : List (Event H)} {g h : H}
    (hes : ∀ e ∈ es, e.handle = g) (hne : g ≠ h) : about (log ++ es) h = about log h := by
  have hnone : es.filter (fun e => e.handle = h) = [] := by
    refine List.filter_eq_nil_iff.mpr fun e he => ?_
    rw [hes e he, decide_eq_true_eq]
    exact hne
  rw [about, List.filter_append, hnone]
  exact List.append_nil _

/-- Hand-overs of `h`, each ended before the next. -/
inductive Ended (h : H) : List (Event H) → Prop
  | nil : Ended h []
  | concat {es last : List (Event H)} (hes : Ended h es) (hlast : Ends h last) :
      Ended h (es ++ .handed h :: last)

/-- As many hand-overs as ends, and nothing freed that was not destroyed. -/
theorem Ended.count {h : H} {es : List (Event H)} (hes : Ended h es) :
    es.count (.freed h) + es.count (.released h) = es.count (.handed h) ∧
      es.count (.destroyed h) = es.count (.freed h) := by
  induction hes with
  | nil => exact ⟨rfl, rfl⟩
  | concat _ hlast ih =>
    simp only [List.count_append, List.count_cons]
    rcases hlast with rfl | rfl
    · simp
      omega
    · simp
      omega

/-! ## The invariant

`unique` is about the holders alone. The other two fields tie them to the log, one for the handles
that somebody holds and one for those that nobody holds; between them they cover every handle, so
a log that says nothing of a handle is a log of a handle that was never handed over. -/

/-- Who holds what, and the log behind it. -/
structure Owned (hold : ι → Option H) (log : List (Event H)) : Prop where
  unique : ∀ x y h, hold x = some h → hold y = some h → x = y
  held : ∀ x h, hold x = some h → ∃ es, Ended h es ∧ about log h = es ++ [.handed h]
  unheld : ∀ h, (∀ x, hold x ≠ some h) → Ended h (about log h)

omit [DecidableEq ι] in
/-- Before anything has been handed over. -/
theorem Owned.start {hold : ι → Option H} (hnone : ∀ x, hold x = none) : Owned hold [] where
  unique x _ _ hx := by
    rw [hnone x] at hx
    exact absurd hx (Option.some_ne_none _).symm
  held x _ hx := by
    rw [hnone x] at hx
    exact absurd hx (Option.some_ne_none _).symm
  unheld _ _ := .nil

section Steps

variable {hold : ι → Option H} {log : List (Event H)} {x y : ι} {h : H}

/-- A handle that nobody holds is handed to an empty holder. `hfresh` is what makes the log go on
well: a handle that nobody holds has its hand-overs all ended. -/
theorem Owned.take (ho : Owned hold log) (hx : hold x = none) (hfresh : ∀ y, hold y ≠ some h) :
    Owned (Function.update hold x (some h)) (log ++ [.handed h]) := by
  -- Whoever else holds something held it before.
  have hold_of : ∀ {z g}, g ≠ h → Function.update hold x (some h) z = some g →
      hold z = some g := by
    intro z g hne hz
    by_cases hzx : z = x
    · subst hzx
      rw [Function.update_self] at hz
      exact absurd (Option.some.inj hz).symm hne
    · rwa [Function.update_of_ne hzx] at hz
  have holder : ∀ {z}, Function.update hold x (some h) z = some h → z = x := by
    intro z hz
    by_contra hzx
    rw [Function.update_of_ne hzx] at hz
    exact hfresh z hz
  have hhanded : ∀ e ∈ [Event.handed h], e.handle = h := fun e he => by
    rw [List.mem_singleton.mp he]
    rfl
  refine ⟨fun z w g hz hw => ?_, fun z g hz => ?_, fun g hnone => ?_⟩
  · by_cases hg : g = h
    · subst hg
      exact (holder hz).trans (holder hw).symm
    · exact ho.unique z w g (hold_of hg hz) (hold_of hg hw)
  · by_cases hg : g = h
    · subst hg
      exact ⟨_, ho.unheld g hfresh, about_append_same log hhanded⟩
    · rw [about_append_other log hhanded (Ne.symm hg)]
      exact ho.held z g (hold_of hg hz)
  · have hg : g ≠ h := by
      rintro rfl
      exact hnone x (Function.update_self ..)
    rw [about_append_other log hhanded (Ne.symm hg)]
    refine ho.unheld g fun z hz => hnone z ?_
    rwa [Function.update_of_ne]
    rintro rfl
    rw [hx] at hz
    exact absurd hz (Option.some_ne_none g).symm

/-- A holder gives its handle up, for an end of its ownership. Since it was the only holder, nobody
holds the handle now, and the hand-over that was open is ended. -/
theorem Owned.drop (ho : Owned hold log) (hx : hold x = some h) {last : List (Event H)}
    (hlast : Ends h last) : Owned (Function.update hold x none) (log ++ last) := by
  -- Whoever holds something is another holder, and held it before.
  have hold_of : ∀ {z g}, Function.update hold x none z = some g → z ≠ x ∧ hold z = some g := by
    intro z g hz
    by_cases hzx : z = x
    · subst hzx
      rw [Function.update_self] at hz
      exact absurd hz (Option.some_ne_none g).symm
    · rw [Function.update_of_ne hzx] at hz
      exact ⟨hzx, hz⟩
  have hhandle := hlast.handle_eq
  refine ⟨fun z w g hz hw => ho.unique z w g (hold_of hz).2 (hold_of hw).2,
    fun z g hz => ?_, fun g hnone => ?_⟩
  · obtain ⟨hzx, hz⟩ := hold_of hz
    have hg : h ≠ g := by
      rintro rfl
      exact hzx (ho.unique z x h hz hx)
    rw [about_append_other log hhandle hg]
    exact ho.held z g hz
  · by_cases hg : h = g
    · subst hg
      obtain ⟨es, hes, habout⟩ := ho.held x h hx
      rw [about_append_same log hhandle, habout, List.append_assoc]
      exact hes.concat hlast
    · rw [about_append_other log hhandle hg]
      refine ho.unheld g fun z hz => hnone z ?_
      rwa [Function.update_of_ne]
      rintro rfl
      rw [hx] at hz
      exact hg (Option.some.inj hz)

/-- An empty holder takes over what another one holds, and that one is left empty. Nothing is
logged: seen from the handle a move does not happen. -/
theorem Owned.move (ho : Owned hold log) (hxy : x ≠ y) (hx : hold x = none) :
    Owned (Function.update (Function.update hold x (hold y)) y none) log := by
  -- Where a handle is now, and where it was.
  have hmoved : ∀ {z g}, Function.update (Function.update hold x (hold y)) y none z = some g ↔
      z ≠ y ∧ hold (if z = x then y else z) = some g := by
    intro z g
    by_cases hzy : z = y
    · subst hzy
      rw [Function.update_self]
      simp
    · rw [Function.update_of_ne hzy]
      by_cases hzx : z = x
      · subst hzx
        rw [Function.update_self, if_pos rfl]
        simp [hzy]
      · rw [Function.update_of_ne hzx, if_neg hzx]
        simp [hzy]
  refine ⟨fun z w g hz hw => ?_, fun z g hz => ?_, fun g hnone => ?_⟩
  · obtain ⟨hzy, hz⟩ := hmoved.mp hz
    obtain ⟨hwy, hw⟩ := hmoved.mp hw
    have hsame := ho.unique _ _ g hz hw
    by_cases hzx : z = x
    · by_cases hwx : w = x
      · exact hzx.trans hwx.symm
      · rw [if_pos hzx, if_neg hwx] at hsame
        exact absurd hsame.symm hwy
    · by_cases hwx : w = x
      · rw [if_neg hzx, if_pos hwx] at hsame
        exact absurd hsame hzy
      · rwa [if_neg hzx, if_neg hwx] at hsame
  · exact ho.held _ g (hmoved.mp hz).2
  · refine ho.unheld g fun z hz => ?_
    by_cases hzy : z = y
    · subst hzy
      refine hnone x (hmoved.mpr ⟨hxy, ?_⟩)
      rwa [if_pos rfl]
    · refine hnone z (hmoved.mpr ⟨hzy, ?_⟩)
      rwa [if_neg]
      rintro rfl
      rw [hx] at hz
      exact absurd hz (Option.some_ne_none g).symm

end Steps

end

end ScratchOs.Ownership
