import ScratchOs.Drivers.Backspace
import ScratchOs.Drivers.Keyboard

/-!
# The echo of a line

`keyboard_handler` edits the line in `key_buffer` and prints what has been pressed. A backspace
takes one character off the line, and one cell off the screen: `echo_matches_iff` says for which
characters that comes to the same.

What the display should be is not said by a picture but by the code itself: the line that is left in
`key_buffer`, echoed from where the typing began. So there is nothing to argue about in how a
character looks, and the question is only whether typing with corrections comes to the same as
typing without.

The statement is about the display after every key and not only after the last one: a later key may
happen to cover what an earlier one has left. The run lemma is about one key more
(`EchoInv.run_key`). It needs the invariant that the display so far is that of the line so far, and
gives both directions at once: the next backspace keeps it exactly if it undoes its character.
-/

set_option autoImplicit false

namespace ScratchOs.Drivers

open ScratchOs.Bytes
open ScratchOs.Libc

/-- `void keyboard_handler(void)`, with what it prints on the display. -/
def handleKey (v : Vbe) (file : CString) (depth : Nat) (st : Keyboard × Display)
    (scancode : UInt8) : Option (Keyboard × Display) := do
  let k := keyboardHandler st.1 scancode
  let d ← (k.console.drop st.1.console.length).foldlM (Display.putChar v file depth) st.2
  some (k, d)

/-- The console that `console_init` has set up, with the cursor at `(x, y)`. -/
def Vbe.consoleAt (v : Vbe) (x y : UInt32) : Console :=
  { consoleInit ⟨v.info.width, v.info.height⟩ with cursorX := x, cursorY := y }

/-- The keys leave the display as the line does that is left of them, when it is echoed from where
they began. -/
def EchoMatches (v : Vbe) (file : CString) (k : Keyboard) (d : Display) (keys : List UInt8) :
    Prop :=
  ∃ depth k' d' line, keys.foldlM (handleKey v file depth) (k, d) = some (k', d') ∧ Holds k' line ∧
    line.foldlM (Display.putChar v file depth) d = some d'

/-- The character left of the cursor fills the last column of its cell. Characters that leave the
cursor where it is do not change that. -/
inductive InkLeft (s₀ : Console) : List UInt8 → Prop
  | drawn {line : List UInt8} {c : UInt8} (hglyph : 32 ≤ c ∧ c ≤ 126) (hwide : Wide c)
      (hmoved : (consolePutChar (s₀.putString line) c).1 =
        { s₀.putString line with cursorX := (s₀.putString line).cursorX + 8 }) :
      InkLeft s₀ (line ++ [c])
  | stays {line : List UInt8} {c : UInt8} (hleft : InkLeft s₀ line)
      (hstayed : (consolePutChar (s₀.putString line) c).1 = s₀.putString line) :
      InkLeft s₀ (line ++ [c])

/-- A backspace undoes `c` behind `line`: it takes the cursor back, and at 16 bits a character that
is drawn does not stand on the ink of the one before it. -/
def Undone (v : Vbe) (s₀ : Console) (line : List UInt8) (c : UInt8) : Prop :=
  TakenBack (s₀.putString line) c ∧
    (32 ≤ c ∧ c ≤ 126 → v.info.bpp = 16 → ¬ InkLeft s₀ line)

/-- A key on a line that is echoed from `s₀` on: no Enter, nothing printed off the screen, no
scrolling. -/
def Undisturbed (v : Vbe) (s₀ : Console) (line : List UInt8) : Key → Prop
  | .nothing => True
  | .enter => False
  | .char c => line.length < 255 → v.Shows (s₀.putString line) ∧ NoScroll (s₀.putString line) c
  | .erase => line ≠ [] → Drawn v (s₀.putString line) 8 ∧ NoScroll (s₀.putString line) 8

/-- `Undisturbed` for every key, on the line at the time it is pressed. -/
def UndisturbedKeys (v : Vbe) (s₀ : Console) (keys : List UInt8) : Prop :=
  ∀ pre scancode, pre ++ [scancode] <+: keys → Undisturbed v s₀ (editLine pre) (keyOf scancode)

/-- Every backspace undoes the character it takes off the line. -/
def BackspacesUndo (v : Vbe) (s₀ : Console) (keys : List UInt8) : Prop :=
  ∀ pre scancode, pre ++ [scancode] <+: keys → keyOf scancode = .erase →
    ∀ line c, editLine pre = line ++ [c] → Undone v s₀ line c

/-- A character of the line, at the time it was typed. -/
structure Typed (v : Vbe) (s₀ : Console) (line : List UInt8) (c : UInt8) : Prop where
  shows : v.Shows (s₀.putString line)
  scroll : NoScroll (s₀.putString line) c
  feed : c ≠ 10
  back : c ≠ 8

/-- The characters of the line, each at the time it was typed. -/
def TypedLine (v : Vbe) (s₀ : Console) (line : List UInt8) : Prop :=
  ∀ pre c, pre ++ [c] <+: line → Typed v s₀ pre c

/-- The display after a line that is drawn and does not scroll. -/
def Display.echoed (v : Vbe) (d : Display) (line : List UInt8) : Display :=
  line.foldl (Display.painted v) d

theorem Display.echoed_concat (v : Vbe) (d : Display) (line : List UInt8) (c : UInt8) :
    d.echoed v (line ++ [c]) = (d.echoed v line).painted v c := by
  rw [Display.echoed, List.foldl_append]
  rfl

/-- The console knows nothing of the pixels. -/
theorem Display.echoed_console (v : Vbe) (d : Display) (line : List UInt8) :
    (d.echoed v line).console = d.console.putString line := by
  induction line using List.reverseRecOn with
  | nil => rfl
  | append_singleton line c ih =>
    rw [Display.echoed_concat, Display.painted_console, ih, putString_append]

/-- What is known of the display when the line has been echoed from `s₀` on. -/
structure Echoed (v : Vbe) (s₀ : Console) (line : List UInt8) (d : Display) : Prop where
  console : d.console = s₀.putString line
  clear : Clear v (InkLeft s₀ line) d.console d.mem
  inked : v.info.bpp = 16 → InkLeft s₀ line → v.Shows d.console → Inked v d.console d.mem

theorem not_inkLeft_nil (s₀ : Console) : ¬ InkLeft s₀ [] := by
  intro h
  generalize hnil : ([] : List UInt8) = line at h
  cases h with
  | drawn => simp at hnil
  | stays => simp at hnil

/-- The last character has put the ink there, or it has not moved the cursor. -/
theorem InkLeft.concat {s₀ : Console} {line : List UInt8} {c : UInt8}
    (h : InkLeft s₀ (line ++ [c])) :
    ((32 ≤ c ∧ c ≤ 126) ∧ Wide c ∧ (consolePutChar (s₀.putString line) c).1 =
        { s₀.putString line with cursorX := (s₀.putString line).cursorX + 8 }) ∨
      InkLeft s₀ line ∧ (consolePutChar (s₀.putString line) c).1 = s₀.putString line := by
  generalize hline : line ++ [c] = line' at h
  cases h with
  | drawn hglyph hwide hmoved =>
    obtain ⟨rfl, hlast⟩ := List.append_inj' hline rfl
    cases hlast
    exact Or.inl ⟨hglyph, hwide, hmoved⟩
  | stays hleft hstayed =>
    obtain ⟨rfl, hlast⟩ := List.append_inj' hline rfl
    cases hlast
    exact Or.inr ⟨hleft, hstayed⟩

section Prefixes

variable {α : Type} {pre keys : List α} {key : α}

theorem not_concat_prefix_nil : ¬ pre ++ [key] <+: [] := by
  intro h
  exact absurd (List.prefix_nil.mp h) (List.append_ne_nil_of_right_ne_nil pre (List.cons_ne_nil key []))

/-- A prefix that ends in a key ends in the last key, or is a prefix of those before. -/
theorem concat_prefix_concat {last : α} (h : pre ++ [key] <+: keys ++ [last]) :
    pre = keys ∧ key = last ∨ pre ++ [key] <+: keys := by
  rcases List.prefix_concat_iff.mp h with heq | hpre
  · obtain ⟨rfl, hlast⟩ := List.append_inj' heq rfl
    cases hlast
    exact Or.inl ⟨rfl, rfl⟩
  · exact Or.inr hpre

theorem concat_prefix_pair {first last : α} (h : pre ++ [key] <+: [first, last]) :
    pre = [] ∧ key = first ∨ pre = [first] ∧ key = last := by
  rcases concat_prefix_concat (show pre ++ [key] <+: [first] ++ [last] from h) with hlast | hpre
  · exact Or.inr hlast
  · rcases concat_prefix_concat (show pre ++ [key] <+: [] ++ [first] from hpre) with hfirst | hpre
    · exact Or.inl hfirst
    · exact absurd hpre not_concat_prefix_nil

end Prefixes

section Keys

variable {v : Vbe} (file : CString) {x y : UInt32}

/-- Nothing but `console_init` sets the colors and the sizes. -/
theorem putString_consoleAt (v : Vbe) (x y : UInt32) (line : List UInt8) :
    ∃ x' y', (v.consoleAt x y).putString line = v.consoleAt x' y' := by
  induction line using List.reverseRecOn with
  | nil => exact ⟨x, y, rfl⟩
  | append_singleton line c ih =>
    obtain ⟨x', y', hline⟩ := ih
    rw [putString_append, hline]
    unfold consolePutChar putGlyph wrapLine consoleScroll
    simp only
    split_ifs <;> exact ⟨_, _, rfl⟩

/-- On a screen that shows the cell, all of its pixels are drawn. -/
theorem Typed.drawn (hv : v.Ready) {s₀ : Console} {line : List UInt8} {c : UInt8}
    (h : Typed v s₀ line c) : Drawn v (s₀.putString line) c := by
  have hno : ¬ (c = 8 ∧ consoleMargin < (s₀.putString line).cursorX) := fun hc => h.back hc.1
  apply List.filter_eq_nil_iff.mpr
  intro p hp
  unfold drawing at hp
  rw [if_neg hno] at hp
  split_ifs at hp
  · rw [hv.cell_accepted h.shows p (glyphPixels_subset _ _ _ hp)]
    decide
  · cases hp

/-- A character that is echoed. -/
theorem Echoed.char (hv : v.Ready) {line : List UInt8} {c : UInt8} {d : Display}
    (h : Echoed v (v.consoleAt x y) line d) (hc : Typed v (v.consoleAt x y) line c) :
    Echoed v (v.consoleAt x y) (line ++ [c]) (d.painted v c) := by
  obtain ⟨x', y', hline⟩ := putString_consoleAt v x y line
  have hshows := hc.shows
  have hscroll := hc.scroll
  have hconsole := h.console
  have hwhite : d.console.cursorColor = vbeRgb 255 255 255 := by
    rw [hconsole, hline]
    rfl
  rw [← hconsole] at hshows hscroll
  refine ⟨?_, ?_, ?_⟩
  · rw [putString_append, ← hconsole]
    rfl
  · apply Clear.next hv hshows h.clear hwhite hscroll hc.feed hc.back
    · intro hleft hstayed
      rw [hconsole] at hstayed
      exact InkLeft.stays hleft hstayed
    · intro hglyph hwide hmoved
      rw [hconsole] at hmoved
      exact InkLeft.drawn hglyph hwide hmoved
  · intro hdeep hleft hnext
    simp only [Display.painted_console, Display.painted_mem] at hnext ⊢
    rcases hleft.concat with ⟨hglyph, hwide, hmoved⟩ | ⟨hleft, hstayed⟩
    · rw [← hconsole] at hmoved
      obtain ⟨hsmall, _⟩ := hv.small hshows
      have hright := hnext.right
      have hcolumn := hshows.right
      rw [hmoved] at hright ⊢
      rw [show (d.console.cursorX + 8).toNat = d.console.cursorX.toNat + 8 from
        Bits.toNat_add_of_lt (by show d.console.cursorX.toNat + 8 < _; omega)] at hright
      rw [drawingColor, drawing, if_pos hglyph, if_pos hglyph, hwhite]
      exact paint_wide hv hshows hdeep (by omega) hwide d.mem
    · rw [← hconsole] at hstayed
      rw [hstayed] at hnext ⊢
      rw [hscroll.drawing_nil hc.feed hc.back hstayed]
      exact h.inked hdeep hleft hnext

/-- A line that is echoed. -/
theorem TypedLine.echoed (hv : v.Ready) {mem : Mem} (hclear : Clear v False (v.consoleAt x y) mem)
    {line : List UInt8} (htyped : TypedLine v (v.consoleAt x y) line) :
    Echoed v (v.consoleAt x y) line (Display.echoed v ⟨v.consoleAt x y, mem⟩ line) := by
  induction line using List.reverseRecOn with
  | nil =>
    refine ⟨rfl, fun row q hahead => ?_, fun _ hleft => (not_inkLeft_nil _ hleft).elim⟩
    exact (hclear row q hahead).imp id fun hink => hink.1.elim
  | append_singleton line c ih =>
    rw [Display.echoed_concat]
    have hline := ih fun pre c' hpre => htyped pre c' (hpre.trans (List.prefix_append line [c]))
    exact hline.char hv (htyped line c (List.prefix_refl _))

theorem foldlM_concat {α β : Type} (f : β → α → Option β) (b : β) (l : List α) (a : α) :
    (l ++ [a]).foldlM f b = (l.foldlM f b).bind fun b => f b a := by
  rw [List.foldlM_append]
  cases l.foldlM f b with
  | none => rfl
  | some b =>
    show ([a].foldlM f b : Option β) = f b a
    rw [List.foldlM_cons]
    cases f b a with
    | none => rfl
    | some b => rfl

/-- What the handler prints for a key on a line. -/
def printed (line : List UInt8) : Key → List UInt8
  | .nothing => []
  | .enter => [newline]
  | .char c => if line.length < 255 then [c] else []
  | .erase => if line.isEmpty then [] else [backspace]

/-- What the handler puts on the console is what `printed` says of its line. -/
theorem keyboardHandler_prints {k : Keyboard} {line : List UInt8} (h : Holds k line)
    (hready : k.lineReady = false) (scancode : UInt8) :
    (keyboardHandler k scancode).console = k.console ++ printed line (keyOf scancode) := by
  have hpos := h.pos
  rw [keyboardHandler_eq]
  cases keyOf scancode with
  | nothing => exact (List.append_nil _).symm
  | enter => rfl
  | char c =>
    simp only [printed]
    by_cases hroom : line.length < 255
    · rw [if_pos ⟨by omega, hready⟩, if_pos hroom]
    · rw [if_neg fun hc => hroom (by omega), if_neg hroom, List.append_nil]
  | erase =>
    simp only [printed]
    cases line with
    | nil =>
      rw [if_neg (by rw [hpos]; decide)]
      exact (List.append_nil _).symm
    | cons c line =>
      rw [List.length_cons] at hpos
      rw [if_pos (by omega)]
      rfl

theorem handleKey_eq {k : Keyboard} {d : Display} {scancode : UInt8} {depth : Nat}
    {out : List UInt8} (hout : (keyboardHandler k scancode).console = k.console ++ out) :
    handleKey v file depth (k, d) scancode =
      (out.foldlM (Display.putChar v file depth) d).map
        fun d => (keyboardHandler k scancode, d) := by
  rw [handleKey, hout, List.drop_left]
  exact (Option.map_eq_bind ..).symm

theorem keyboardHandler_console (k : Keyboard) (scancode : UInt8) :
    ∃ out, (keyboardHandler k scancode).console = k.console ++ out := by
  unfold keyboardHandler
  simp only
  split_ifs <;> first | exact ⟨_, rfl⟩ | exact ⟨[], (List.append_nil _).symm⟩

/-- A run of keys draws what is put on the console. -/
theorem handleKeys_eq (depth : Nat) {keys : List UInt8} : ∀ {k : Keyboard} {d : Display}, ∃ out,
    (keys.foldl keyboardHandler k).console = k.console ++ out ∧
      keys.foldlM (handleKey v file depth) (k, d) =
        (out.foldlM (Display.putChar v file depth) d).map
          fun d => (keys.foldl keyboardHandler k, d) := by
  induction keys with
  | nil =>
    intro k d
    exact ⟨[], (List.append_nil _).symm, rfl⟩
  | cons scancode keys ih =>
    intro k d
    obtain ⟨out, hout⟩ := keyboardHandler_console k scancode
    rw [List.foldlM_cons, handleKey_eq file hout]
    cases hd : out.foldlM (Display.putChar v file depth) d with
    | none =>
      obtain ⟨out₂, hout₂, _⟩ := @ih (keyboardHandler k scancode) d
      refine ⟨out ++ out₂, ?_, ?_⟩
      · rw [List.foldl_cons, hout₂, hout, List.append_assoc]
      · rw [List.foldlM_append, hd]
        rfl
    | some d₁ =>
      obtain ⟨out₂, hout₂, hrun⟩ := @ih (keyboardHandler k scancode) d₁
      refine ⟨out ++ out₂, ?_, ?_⟩
      · rw [List.foldl_cons, hout₂, hout, List.append_assoc]
      · rw [List.foldlM_append, hd]
        exact hrun

/-- Enter and backspace are no characters of the line. -/
theorem keyOf_char_ne {scancode c : UInt8} (h : keyOf scancode = .char c) : c ≠ 10 ∧ c ≠ 8 := by
  unfold keyOf at h
  split_ifs at h with _ hfeed hback _
  cases h
  exact ⟨hfeed, hback⟩

/-! ## Whole lines, key by key -/

/-- A buffer holds one line. -/
theorem Holds.eq {k : Keyboard} {xs ys : List UInt8} (hxs : Holds k xs) (hys : Holds k ys) :
    xs = ys := by
  have hpos := hxs.pos
  rw [hys.pos] at hpos
  apply List.ext_getElem (by omega)
  intro i hi hi'
  rw [← hxs.chars i hi]
  exact hys.chars i hi'

/-- A character and a backspace leave the display as it was, or they do not: the invariant knows
enough of the pixels to tell which. -/
theorem Echoed.undone_iff (hv : v.Ready) {line : List UInt8} {c : UInt8} {d : Display}
    (h : Echoed v (v.consoleAt x y) line d) (hc : Typed v (v.consoleAt x y) line c) :
    (d.painted v c).painted v 8 = d ↔ Undone v (v.consoleAt x y) line c := by
  obtain ⟨x', y', hline⟩ := putString_consoleAt v x y line
  have hconsole := h.console.trans hline
  have hshows := hc.shows
  have hscroll := hc.scroll
  rw [← h.console] at hshows hscroll
  rw [Undone, ← h.console]
  apply painted_backspace_iff hv hshows _ _ hscroll hc.feed hc.back h.clear
  · intro hdeep hleft
    exact h.inked hdeep hleft hshows
  · rw [hconsole]
    rfl
  · rw [hconsole]
    rfl

/-- A backspace on a line that has been echoed. -/
theorem TypedLine.undone_iff (hv : v.Ready) {mem : Mem}
    (hclear : Clear v False (v.consoleAt x y) mem) {line : List UInt8} {c : UInt8}
    (htyped : TypedLine v (v.consoleAt x y) (line ++ [c])) :
    (Display.echoed v ⟨v.consoleAt x y, mem⟩ (line ++ [c])).painted v 8 =
        Display.echoed v ⟨v.consoleAt x y, mem⟩ line ↔
      Undone v (v.consoleAt x y) line c := by
  have hbefore : TypedLine v (v.consoleAt x y) line := fun pre c' hpre =>
    htyped pre c' (hpre.trans (List.prefix_append line [c]))
  rw [Display.echoed_concat]
  exact (hbefore.echoed hv hclear).undone_iff hv (htyped line c (List.prefix_refl _))

/-- A line is printed as it is drawn. -/
theorem TypedLine.putChars (hv : v.Ready) {mem : Mem} {line : List UInt8}
    (htyped : TypedLine v (v.consoleAt x y) line) (depth : Nat) :
    line.foldlM (Display.putChar v file (depth + 1)) ⟨v.consoleAt x y, mem⟩ =
      some (Display.echoed v ⟨v.consoleAt x y, mem⟩ line) := by
  induction line using List.reverseRecOn with
  | nil => rfl
  | append_singleton line c ih =>
    have hline := ih fun pre c' hpre => htyped pre c' (hpre.trans (List.prefix_append line [c]))
    have hc := htyped line c (List.prefix_refl _)
    rw [foldlM_concat, hline, Display.echoed_concat]
    apply Display.putChar_painted file depth
    · rw [Display.echoed_console]
      exact hc.drawn hv
    · rw [Display.echoed_console]
      exact hc.scroll

/-- What a key prints when nothing disturbs it: no more than one character. -/
theorem Undisturbed.printed (hv : v.Ready) {s₀ : Console} {line : List UInt8} {scancode : UInt8}
    (h : Undisturbed v s₀ line (keyOf scancode)) :
    printed line (keyOf scancode) = [] ∨ ∃ c, printed line (keyOf scancode) = [c] ∧
      Drawn v (s₀.putString line) c ∧ NoScroll (s₀.putString line) c := by
  cases hkey : keyOf scancode with
  | nothing => exact Or.inl rfl
  | enter =>
    rw [hkey] at h
    exact h.elim
  | char c =>
    rw [hkey] at h
    by_cases hroom : line.length < 255
    · obtain ⟨hshows, hscroll⟩ := h hroom
      obtain ⟨hfeed, hback⟩ := keyOf_char_ne hkey
      refine Or.inr ⟨c, if_pos hroom, ?_, hscroll⟩
      exact (show Typed v s₀ line c from ⟨hshows, hscroll, hfeed, hback⟩).drawn hv
    · exact Or.inl (if_neg hroom)
  | erase =>
    rw [hkey] at h
    cases line with
    | nil => exact Or.inl rfl
    | cons c line => exact Or.inr ⟨backspace, rfl, h (List.cons_ne_nil c line)⟩

/-- What a run of keys keeps. -/
structure EchoInv (v : Vbe) (file : CString) (x y : UInt32) (k₀ : Keyboard) (mem : Mem)
    (keys : List UInt8) : Prop where
  keyboard : KeyboardInv (keys.foldl keyboardHandler k₀) (.typing keys)
  typed : TypedLine v (v.consoleAt x y) (editLine keys)
  run (depth : Nat) : keys.foldlM (handleKey v file (depth + 1)) (k₀, ⟨v.consoleAt x y, mem⟩) =
    some (keys.foldl keyboardHandler k₀,
      Display.echoed v ⟨v.consoleAt x y, mem⟩ (editLine keys))

section Run

variable {k₀ : Keyboard} {mem : Mem} {keys : List UInt8} {scancode : UInt8}

theorem keyboardHandler_concat (k₀ : Keyboard) (keys : List UInt8) (scancode : UInt8) :
    (keys ++ [scancode]).foldl keyboardHandler k₀ =
      keyboardHandler (keys.foldl keyboardHandler k₀) scancode := by
  rw [List.foldl_append]
  rfl

/-- One more key: what it prints is drawn behind the line. -/
theorem EchoInv.run_key (hv : v.Ready) (h : EchoInv v file x y k₀ mem keys)
    (hkey : Undisturbed v (v.consoleAt x y) (editLine keys) (keyOf scancode)) (depth : Nat) :
    (keys ++ [scancode]).foldlM (handleKey v file (depth + 1)) (k₀, ⟨v.consoleAt x y, mem⟩) =
      some ((keys ++ [scancode]).foldl keyboardHandler k₀,
        (Display.echoed v ⟨v.consoleAt x y, mem⟩ (editLine keys)).echoed v
          (printed (editLine keys) (keyOf scancode))) := by
  rw [foldlM_concat, h.run, keyboardHandler_concat]
  show handleKey v file (depth + 1) _ scancode = _
  rw [handleKey_eq file (keyboardHandler_prints h.keyboard.2 h.keyboard.1 scancode)]
  rcases hkey.printed hv with hnone | ⟨c, hone, hdrawn, hscroll⟩
  · rw [hnone]
    rfl
  · have hchar : Display.putChar v file (depth + 1)
        (Display.echoed v ⟨v.consoleAt x y, mem⟩ (editLine keys)) c =
          some ((Display.echoed v ⟨v.consoleAt x y, mem⟩ (editLine keys)).painted v c) := by
      apply Display.putChar_painted file depth
      · rw [Display.echoed_console]
        exact hdrawn
      · rw [Display.echoed_console]
        exact hscroll
    rw [hone, List.foldlM_cons, hchar]
    rfl

/-- The characters of the line after a key. -/
theorem TypedLine.key {s₀ : Console} {line : List UInt8} (h : TypedLine v s₀ line)
    (hkey : Undisturbed v s₀ line (keyOf scancode)) :
    TypedLine v s₀ (editKey line (keyOf scancode)) := by
  cases hk : keyOf scancode with
  | nothing => exact h
  | enter => exact h
  | char c =>
    rw [hk] at hkey
    rw [editKey_char]
    by_cases hroom : line.length < 255
    · rw [if_pos hroom]
      obtain ⟨hshows, hscroll⟩ := hkey hroom
      obtain ⟨hfeed, hback⟩ := keyOf_char_ne hk
      intro pre c' hpre
      rcases concat_prefix_concat hpre with ⟨rfl, rfl⟩ | hpre
      · exact ⟨hshows, hscroll, hfeed, hback⟩
      · exact h pre c' hpre
    · rw [if_neg hroom]
      exact h
  | erase =>
    rw [editKey_erase]
    intro pre c hpre
    exact h pre c (hpre.trans (List.dropLast_prefix line))

/-- The line once more, echoed from the start. -/
theorem EchoInv.display (hv : v.Ready) (hclear : Clear v False (v.consoleAt x y) mem)
    (h : EchoInv v file x y k₀ mem keys) (henter : keyOf scancode ≠ .enter)
    (hundo : keyOf scancode = .erase → ∀ line c, editLine keys = line ++ [c] →
      Undone v (v.consoleAt x y) line c) :
    (Display.echoed v ⟨v.consoleAt x y, mem⟩ (editLine keys)).echoed v
        (printed (editLine keys) (keyOf scancode)) =
      Display.echoed v ⟨v.consoleAt x y, mem⟩ (editLine (keys ++ [scancode])) := by
  have htyped := h.typed
  rw [editLine_concat]
  cases hk : keyOf scancode with
  | nothing => rfl
  | enter => exact absurd hk henter
  | char c =>
    rw [editKey_char, printed]
    by_cases hroom : (editLine keys).length < 255
    · rw [if_pos hroom, if_pos hroom, Display.echoed_concat]
      rfl
    · rw [if_neg hroom, if_neg hroom]
      rfl
  | erase =>
    rw [editKey_erase]
    rcases List.eq_nil_or_concat' (editLine keys) with hnil | ⟨line, c, hline⟩
    · rw [hnil]
      rfl
    · rw [hline] at htyped ⊢
      rw [List.dropLast_concat, printed, if_neg (by simp)]
      exact (htyped.undone_iff hv hclear).mpr (hundo hk line c hline)

/-- One more key keeps the invariant, if it is no backspace or undoes its character. -/
theorem EchoInv.key (hv : v.Ready) (hclear : Clear v False (v.consoleAt x y) mem)
    (h : EchoInv v file x y k₀ mem keys)
    (hkey : Undisturbed v (v.consoleAt x y) (editLine keys) (keyOf scancode))
    (hundo : keyOf scancode = .erase → ∀ line c, editLine keys = line ++ [c] →
      Undone v (v.consoleAt x y) line c) :
    EchoInv v file x y k₀ mem (keys ++ [scancode]) := by
  have henter : keyOf scancode ≠ .enter := fun hk => by rw [hk] at hkey; exact hkey
  refine ⟨?_, ?_, fun depth => ?_⟩
  · have hkeyboard := h.keyboard.key scancode
    rw [Phase.step, if_neg henter] at hkeyboard
    rw [keyboardHandler_concat]
    exact hkeyboard
  · rw [editLine_concat]
    exact h.typed.key hkey
  · rw [h.run_key file hv hkey depth, h.display file hv hclear henter hundo]

/-- Where the invariant holds, the echo matches. -/
theorem EchoInv.echoMatches (hv : v.Ready) (h : EchoInv v file x y k₀ mem keys) :
    EchoMatches v file k₀ ⟨v.consoleAt x y, mem⟩ keys :=
  ⟨1, _, _, editLine keys, h.run 0, h.keyboard.2, h.typed.putChars file hv 0⟩

/-- A call that prints takes one level at least. -/
theorem handleKey_zero {k : Keyboard} {d : Display} {c : UInt8} {out : List UInt8}
    (hout : (keyboardHandler k scancode).console = k.console ++ c :: out) :
    handleKey v file 0 (k, d) scancode = none := by
  rw [handleKey_eq file hout, List.foldlM_cons]
  rfl

/-- **A backspace after which the echo matches has undone the character.** -/
theorem EchoInv.undone (hv : v.Ready) (hclear : Clear v False (v.consoleAt x y) mem)
    (h : EchoInv v file x y k₀ mem keys)
    (hkey : Undisturbed v (v.consoleAt x y) (editLine keys) (keyOf scancode))
    (herase : keyOf scancode = .erase) {line : List UInt8} {c : UInt8}
    (hline : editLine keys = line ++ [c])
    (hmatch : EchoMatches v file k₀ ⟨v.consoleAt x y, mem⟩ (keys ++ [scancode])) :
    Undone v (v.consoleAt x y) line c := by
  obtain ⟨depth, k', d', line', hrun, hholds, hecho⟩ := hmatch
  have htyped := h.typed
  have hprinted : printed (editLine keys) (keyOf scancode) = [backspace] := by
    rw [herase, hline, printed, if_neg (by simp)]
  cases depth with
  | zero =>
    obtain ⟨out, _, hall⟩ := @handleKeys_eq v file 0 keys k₀ ⟨v.consoleAt x y, mem⟩
    rw [foldlM_concat, hall] at hrun
    obtain ⟨⟨k, d⟩, hd, hlast⟩ := Option.bind_eq_some_iff.mp hrun
    obtain ⟨_, _, heq⟩ := Option.map_eq_some_iff.mp hd
    obtain ⟨rfl, rfl⟩ := Prod.mk.inj heq
    have hconsole := keyboardHandler_prints h.keyboard.2 h.keyboard.1 scancode
    rw [hprinted] at hconsole
    rw [handleKey_zero file hconsole] at hlast
    cases hlast
  | succ depth =>
    rw [h.run_key file hv hkey depth, hprinted] at hrun
    obtain ⟨rfl, rfl⟩ := Prod.mk.inj (Option.some.inj hrun)
    have hkeyboard := (h.keyboard.key scancode)
    rw [Phase.step, if_neg (by rw [herase]; decide)] at hkeyboard
    rw [keyboardHandler_concat] at hholds
    have hleft : line' = line := by
      rw [hholds.eq hkeyboard.2, editLine_concat, herase, editKey_erase, hline,
        List.dropLast_concat]
    rw [hline] at htyped hecho
    have hbefore : TypedLine v (v.consoleAt x y) line := fun pre c' hpre =>
      htyped pre c' (hpre.trans (List.prefix_append line [c]))
    rw [hleft, hbefore.putChars file hv depth] at hecho
    apply (htyped.undone_iff hv hclear).mp
    exact (Option.some.inj hecho).symm

end Run

theorem UndisturbedKeys.mono {s₀ : Console} {keys keys' : List UInt8}
    (h : UndisturbedKeys v s₀ keys) (hkeys : keys' <+: keys) : UndisturbedKeys v s₀ keys' :=
  fun pre scancode hpre => h pre scancode (hpre.trans hkeys)

theorem BackspacesUndo.mono {s₀ : Console} {keys keys' : List UInt8} (h : BackspacesUndo v s₀ keys)
    (hkeys : keys' <+: keys) : BackspacesUndo v s₀ keys' :=
  fun pre scancode hpre => h pre scancode (hpre.trans hkeys)

/-- A run of keys whose backspaces all undo what they take off. -/
theorem echoInv_run (hv : v.Ready) {k₀ : Keyboard} (hpos : k₀.bufferPos = 0)
    (hready : k₀.lineReady = false) {mem : Mem} (hclear : Clear v False (v.consoleAt x y) mem)
    {keys : List UInt8} (hkeys : UndisturbedKeys v (v.consoleAt x y) keys)
    (hundo : BackspacesUndo v (v.consoleAt x y) keys) : EchoInv v file x y k₀ mem keys := by
  induction keys using List.reverseRecOn with
  | nil =>
    refine ⟨⟨hready, hpos, fun i hi => ?_⟩, fun pre c hpre => ?_, fun depth => rfl⟩
    · exact absurd hi (Nat.not_lt_zero i)
    · exact absurd hpre not_concat_prefix_nil
  | append_singleton keys scancode ih =>
    have hsub := List.prefix_append keys [scancode]
    have hinv := ih (hkeys.mono hsub) (hundo.mono hsub)
    exact hinv.key file hv hclear (hkeys keys scancode (List.prefix_refl _))
      (hundo keys scancode (List.prefix_refl _))

/-- **The echoed line matches the edited line** all along a run of keys, from any cursor on, if and
only if every backspace undoes what it takes off. -/
theorem echo_matches_iff (hv : v.Ready) (file : CString) (x y : UInt32) {k₀ : Keyboard}
    (hpos : k₀.bufferPos = 0) (hready : k₀.lineReady = false) {mem : Mem}
    (hclear : Clear v False (v.consoleAt x y) mem) (keys : List UInt8)
    (hkeys : UndisturbedKeys v (v.consoleAt x y) keys) :
    (∀ pre, pre <+: keys → EchoMatches v file k₀ ⟨v.consoleAt x y, mem⟩ pre) ↔
      BackspacesUndo v (v.consoleAt x y) keys := by
  constructor
  · intro hmatch
    induction keys using List.reverseRecOn with
    | nil =>
      intro pre scancode hpre
      exact absurd hpre not_concat_prefix_nil
    | append_singleton keys scancode ih =>
      have hbefore := hkeys.mono (List.prefix_append keys [scancode])
      have hundo := ih hbefore fun pre hpre =>
        hmatch pre (hpre.trans (List.prefix_append keys [scancode]))
      intro pre scancode' hpre herase line c hline
      rcases concat_prefix_concat hpre with ⟨rfl, rfl⟩ | hpre
      · have hinv := echoInv_run file hv hpos hready hclear hbefore hundo
        exact hinv.undone file hv hclear (hkeys _ _ (List.prefix_refl _)) herase hline
          (hmatch _ (List.prefix_refl _))
      · exact hundo pre scancode' hpre herase line c hline
  · intro hundo pre hpre
    have hinv := echoInv_run file hv hpos hready hclear (hkeys.mono hpre) (hundo.mono hpre)
    exact hinv.echoMatches file hv

end Keys

/-- The mode that `boot/multiboot.asm` asks for. -/
def requestedScreen : Vbe := Vbe.init ⟨4096, 1024, 768, 32⟩ 0xC0300000

/-- `a`, backspace. -/
theorem echo_matches_a :
    EchoMatches requestedScreen ⟨vbeFile, zero_not_mem_vbeFile⟩ ⟨fun _ => 0, 0, false, []⟩
      ⟨requestedScreen.consoleAt 10 10, fun _ => 0⟩ [0x1E, 0x0E] := by
  refine (echo_matches_iff ⟨⟨rfl, by decide, by decide, by decide⟩, by decide⟩ _ 10 10 rfl rfl
    (fun row q _ => Or.inl rfl) [0x1E, 0x0E] ?_).mpr ?_ _ (List.prefix_refl _)
  · intro pre scancode hpre
    rcases concat_prefix_pair hpre with ⟨rfl, rfl⟩ | ⟨rfl, rfl⟩
    · exact fun _ => ⟨⟨by decide, by decide⟩, by decide⟩
    · exact fun _ => ⟨by decide, by decide⟩
  · intro pre scancode hpre herase line c hline
    rcases concat_prefix_pair hpre with ⟨rfl, rfl⟩ | ⟨rfl, rfl⟩
    · cases herase
    · obtain ⟨rfl, hlast⟩ := List.append_inj' (show [] ++ [97] = line ++ [c] from hline) rfl
      cases hlast
      exact ⟨⟨by decide, by decide⟩, fun _ hdeep => absurd hdeep (by decide)⟩

/-- Tab, backspace, on a black screen: the line is empty, and the cursor is 24 pixels off. -/
theorem tab_not_erased :
    requestedScreen.Ready ∧ requestedScreen.Shows (requestedScreen.consoleAt 10 10) ∧
      Clear requestedScreen False (requestedScreen.consoleAt 10 10) (fun _ => 0) ∧
      UndisturbedKeys requestedScreen (requestedScreen.consoleAt 10 10) [0x0F, 0x0E] ∧
      ¬ EchoMatches requestedScreen ⟨vbeFile, zero_not_mem_vbeFile⟩ ⟨fun _ => 0, 0, false, []⟩
        ⟨requestedScreen.consoleAt 10 10, fun _ => 0⟩ [0x0F, 0x0E] := by
  refine ⟨⟨⟨rfl, by decide, by decide, by decide⟩, by decide⟩, ⟨by decide, by decide⟩,
    fun row q _ => Or.inl rfl, fun pre scancode hpre => ?_, ?_⟩
  · rcases concat_prefix_pair hpre with ⟨rfl, rfl⟩ | ⟨rfl, rfl⟩
    · exact fun _ => ⟨⟨by decide, by decide⟩, by decide⟩
    · exact fun _ => ⟨by decide, by decide⟩
  rintro ⟨depth, k', d', line, hrun, hholds, hecho⟩
  obtain ⟨out, hout, hall⟩ := handleKeys_eq _ depth
  rw [hall] at hrun
  obtain ⟨d, hd, hlast⟩ := Option.map_eq_some_iff.mp hrun
  obtain rfl : out = [9, 8] := hout.symm
  obtain ⟨rfl, rfl⟩ := Prod.mk.inj hlast
  obtain rfl : line = [] := List.length_eq_zero_iff.mp (Int.natCast_eq_zero.mp hholds.pos.symm)
  cases depth with
  | zero => cases hd
  | succ depth =>
    have hdrawn : TextDrawn requestedScreen (requestedScreen.consoleAt 10 10) [9, 8] := by decide
    have hmoved : requestedScreen.consoleAt 10 10 ≠
        (requestedScreen.consoleAt 10 10).putString [9, 8] := by decide
    obtain ⟨mem', htext⟩ := Display.putText_drawn (fun _ => 0) hdrawn
    rw [htext] at hd
    cases hd
    exact hmoved (congrArg Display.console (Option.some.inj hecho))

end ScratchOs.Drivers
