import Mathlib.Data.List.Induction
import Mathlib.Logic.Function.Basic

/-!
# The keyboard's line discipline

`drivers/keyboard.cpp`. The interrupt handler edits a line in `key_buffer`, Enter commits it,
and `get_input_buffer` hands it over. Each of the two is one step here.

What the line should be is `editLine`, a fold over the keys. `Phase` keeps the keys of the line
being typed, and, once Enter has been pressed, those that came later apart. `KeyboardInv` ties
the statics to it: the line typed so far, or what later backspaces have left of the one that
was entered. Append looks at `line_ready`, backspace does not.

That last sentence is the whole defect, and the module is shaped by it. Were backspace to look as
well, the keys after Enter would not matter and one list would do. As it is, what a call delivers is
the line as it was entered only if the backspaces since have not come to the characters it delivers
(`Undamaged`); with a small buffer they need not have, although they have shortened the line. So the
condition has the caller's `max_size` in it, and the result is about every one.

`key_buffer` keeps its characters when the position goes back. The invariant is therefore about the
first `buffer_pos` of them and says nothing of the others.
-/

set_option autoImplicit false

namespace ScratchOs.Drivers

/-- The statics, and what has been put on the console. -/
structure Keyboard where
  keyBuffer : Int → UInt8
  bufferPos : Int
  lineReady : Bool
  console : List UInt8

def newline : UInt8 := 10

def backspace : UInt8 := 8

/-- `scancode_to_ascii`, up to the last entry that is not 0. The letters stand for themselves;
0x27, 0x60 and 0x5C are the quote, the backtick and the backslash. -/
def scancodeTable : List UInt8 :=
  [0, 27] ++ ['1', '2', '3', '4', '5', '6', '7', '8', '9', '0', '-', '='].map Char.toUInt8 ++
  [backspace, 9] ++
  ['q', 'w', 'e', 'r', 't', 'y', 'u', 'i', 'o', 'p', '[', ']'].map Char.toUInt8 ++
  [newline, 0] ++ ['a', 's', 'd', 'f', 'g', 'h', 'j', 'k', 'l', ';'].map Char.toUInt8 ++
  [0x27, 0x60, 0, 0x5C] ++
  ['z', 'x', 'c', 'v', 'b', 'n', 'm', ',', '.', '/'].map Char.toUInt8 ++
  [0, 42, 0, 32, 0] ++ List.replicate 10 0 ++ [0, 0] ++ [0, 0, 0, 45] ++ [0, 0, 0, 43]

def scancodeToAscii (scancode : UInt8) : UInt8 := scancodeTable.getD scancode.toNat 0

/-- `void init_keyboard(void)`, less the ports. -/
def initKeyboard (k : Keyboard) : Keyboard := { k with bufferPos := 0, lineReady := false }

/-- The loop of `get_input_buffer`. It runs at most `buffer_pos` times. -/
def copyLine (k : Keyboard) (maxSize : Int) : Nat → Int → (Int → UInt8) → Int × (Int → UInt8)
  | 0, i, buffer => (i, buffer)
  | fuel + 1, i, buffer =>
    if i < k.bufferPos ∧ i < maxSize - 1 then
      copyLine k maxSize fuel (i + 1) (Function.update buffer i (k.keyBuffer i))
    else (i, buffer)

/-- `bool get_input_buffer(char* buffer, int max_size)`: the answer, the buffer after it, and
the statics. -/
def getInputBuffer (k : Keyboard) (buffer : Int → UInt8) (maxSize : Int) :
    Bool × (Int → UInt8) × Keyboard :=
  if !k.lineReady then (false, buffer, k)
  else
    let (i, buffer) := copyLine k maxSize k.bufferPos.toNat 0 buffer
    (true, Function.update buffer i 0, { k with bufferPos := 0, lineReady := false })

/-- `void keyboard_handler(void)`, with the byte it reads from the port. -/
def keyboardHandler (k : Keyboard) (scancode : UInt8) : Keyboard :=
  if scancode &&& 0x80 = 0 then
    let ascii := scancodeToAscii scancode
    if ascii = newline then { k with console := k.console ++ [newline], lineReady := true }
    else if ascii = backspace then
      if 0 < k.bufferPos then
        { k with bufferPos := k.bufferPos - 1, console := k.console ++ [backspace] }
      else k
    else if ascii ≠ 0 then
      if k.bufferPos < 255 ∧ k.lineReady = false then
        { k with
          keyBuffer := Function.update k.keyBuffer k.bufferPos ascii
          bufferPos := k.bufferPos + 1
          console := k.console ++ [ascii] }
      else k
    else k
  else k

inductive KeyEvent
  | key (scancode : UInt8)
  | get (maxSize : Int)

/-- What is left in a caller's buffer does not matter to the keyboard. -/
def Keyboard.step (k : Keyboard) : KeyEvent → Keyboard
  | .key scancode => keyboardHandler k scancode
  | .get maxSize => (getInputBuffer k (fun _ => 0) maxSize).2.2

def Keyboard.run (k : Keyboard) (es : List KeyEvent) : Keyboard := es.foldl Keyboard.step k

/-! ## The line that was typed -/

/-- What a scancode stands for. Releases, and keys without a character, do nothing. -/
inductive Key
  | nothing
  | enter
  | erase
  | char (c : UInt8)
deriving DecidableEq

def keyOf (scancode : UInt8) : Key :=
  if scancode &&& 0x80 = 0 then
    if scancodeToAscii scancode = newline then .enter
    else if scancodeToAscii scancode = backspace then .erase
    else if scancodeToAscii scancode ≠ 0 then .char (scancodeToAscii scancode)
    else .nothing
  else .nothing

/-- One key on a line of at most 255 characters. -/
def editKey (line : List UInt8) : Key → List UInt8
  | .char c => if line.length < 255 then line ++ [c] else line
  | .erase => line.dropLast
  | _ => line

@[simp] theorem editKey_char (line : List UInt8) (c : UInt8) :
    editKey line (.char c) = if line.length < 255 then line ++ [c] else line := rfl

@[simp] theorem editKey_erase (line : List UInt8) : editKey line .erase = line.dropLast := rfl

def editLine (keys : List UInt8) : List UInt8 :=
  keys.foldl (fun line scancode => editKey line (keyOf scancode)) []

/-- The keys since the last successful call: all of them, or those before the first Enter and
those after it. -/
inductive Phase
  | typing (keys : List UInt8)
  | entered (keys later : List UInt8)
deriving DecidableEq

def Phase.step : Phase → KeyEvent → Phase
  | .typing keys, .key scancode =>
    if keyOf scancode = .enter then .entered keys [] else .typing (keys ++ [scancode])
  | .entered keys later, .key scancode => .entered keys (later ++ [scancode])
  | .typing keys, .get _ => .typing keys
  | .entered _ _, .get _ => .typing []

def history (es : List KeyEvent) : Phase := es.foldl Phase.step (.typing [])

def erasures (keys : List UInt8) : Nat := keys.countP (keyOf · = .erase)

/-- What the backspaces after Enter leave of the line. -/
def leftOf (keys later : List UInt8) : List UInt8 :=
  (editLine keys).take ((editLine keys).length - erasures later)

theorem keyOf_char {scancode c : UInt8} (h : keyOf scancode = .char c) : c ≠ 0 := by
  unfold keyOf at h
  split_ifs at h with _ _ _ hc
  cases h
  exact hc

theorem editLine_concat (keys : List UInt8) (scancode : UInt8) :
    editLine (keys ++ [scancode]) = editKey (editLine keys) (keyOf scancode) := by
  rw [editLine, List.foldl_append]
  rfl

theorem editLine_bounds (keys : List UInt8) :
    (editLine keys).length ≤ 255 ∧ 0 ∉ editLine keys := by
  induction keys using List.reverseRecOn with
  | nil => exact ⟨Nat.zero_le _, List.not_mem_nil⟩
  | append_singleton keys scancode ih =>
    obtain ⟨hlen, hzero⟩ := ih
    rw [editLine_concat]
    cases hkey : keyOf scancode with
    | nothing => exact ⟨hlen, hzero⟩
    | enter => exact ⟨hlen, hzero⟩
    | erase =>
      refine ⟨?_, fun hmem => hzero (List.dropLast_subset _ hmem)⟩
      have hcut := @List.length_dropLast _ (editLine keys)
      rw [editKey_erase]
      omega
    | char c =>
      rw [editKey_char]
      split
      · refine ⟨?_, fun hmem => ?_⟩
        · have hlonger := @List.length_append _ (editLine keys) [c]
          rw [List.length_singleton] at hlonger
          omega
        · rcases List.mem_append.mp hmem with hmem | hmem
          · exact hzero hmem
          · exact keyOf_char hkey (List.mem_singleton.mp hmem).symm
      · exact ⟨hlen, hzero⟩

/-! ## The statics hold the line -/

/-- The handler, key by key. -/
theorem keyboardHandler_eq (k : Keyboard) (scancode : UInt8) :
    keyboardHandler k scancode =
      match keyOf scancode with
      | .nothing => k
      | .enter => { k with console := k.console ++ [newline], lineReady := true }
      | .erase =>
        if 0 < k.bufferPos then
          { k with bufferPos := k.bufferPos - 1, console := k.console ++ [backspace] }
        else k
      | .char c =>
        if k.bufferPos < 255 ∧ k.lineReady = false then
          { k with
            keyBuffer := Function.update k.keyBuffer k.bufferPos c
            bufferPos := k.bufferPos + 1
            console := k.console ++ [c] }
        else k := by
  unfold keyboardHandler keyOf
  by_cases hp : scancode &&& 0x80 = 0
  · simp only [if_pos hp]
    by_cases hn : scancodeToAscii scancode = newline
    · rw [if_pos hn, if_pos hn]
    · rw [if_neg hn, if_neg hn]
      by_cases hb : scancodeToAscii scancode = backspace
      · rw [if_pos hb, if_pos hb]
      · rw [if_neg hb, if_neg hb]
        by_cases ha : scancodeToAscii scancode ≠ 0
        · rw [if_pos ha, if_pos ha]
        · rw [if_neg ha, if_neg ha]
  · rw [if_neg hp, if_neg hp]

/-- The first `buffer_pos` characters are the line. -/
structure Holds (k : Keyboard) (line : List UInt8) : Prop where
  pos : k.bufferPos = line.length
  chars : ∀ (i : Nat) (h : i < line.length), k.keyBuffer i = (line)[i]

theorem Holds.take {k k' : Keyboard} {line : List UInt8} (h : Holds k line) {n : Nat}
    (hn : n ≤ line.length) (hbuf : k'.keyBuffer = k.keyBuffer) (hpos : k'.bufferPos = n) :
    Holds k' (line.take n) := by
  constructor
  · rw [hpos, List.length_take, Nat.min_eq_left hn]
  · intro i hi
    rw [List.length_take] at hi
    rw [hbuf, List.getElem_take]
    exact h.chars i (by omega)

theorem Holds.append {k k' : Keyboard} {line : List UInt8} (h : Holds k line) (c : UInt8)
    (hbuf : k'.keyBuffer = Function.update k.keyBuffer k.bufferPos c)
    (hpos : k'.bufferPos = k.bufferPos + 1) : Holds k' (line ++ [c]) := by
  constructor
  · rw [hpos, h.pos, List.length_append, List.length_singleton]
    rfl
  · intro i hi
    rw [List.length_append, List.length_singleton] at hi
    rw [hbuf, h.pos]
    by_cases hi' : i < line.length
    · rw [List.getElem_append_left hi', Function.update_of_ne (by omega)]
      exact h.chars i hi'
    · obtain rfl : i = line.length := by omega
      simp

/-- Backspace takes one character off, if there is one. -/
theorem Holds.erase {k : Keyboard} {line : List UInt8} (h : Holds k line) {scancode : UInt8}
    (hkey : keyOf scancode = .erase) :
    Holds (keyboardHandler k scancode) (line.take (line.length - 1)) ∧
      (keyboardHandler k scancode).lineReady = k.lineReady := by
  have hpos := h.pos
  rw [keyboardHandler_eq, hkey]
  simp only
  split
  · exact ⟨h.take (Nat.sub_le _ _) rfl (by show k.bufferPos - 1 = _; omega), rfl⟩
  · exact ⟨h.take (Nat.sub_le _ _) rfl (by omega), rfl⟩

/-- The invariant of runs. -/
def KeyboardInv (k : Keyboard) : Phase → Prop
  | .typing keys => k.lineReady = false ∧ Holds k (editLine keys)
  | .entered keys later => k.lineReady = true ∧ Holds k (leftOf keys later)

/-- One key while the line is being typed. -/
theorem KeyboardInv.key {k : Keyboard} {keys : List UInt8} (h : KeyboardInv k (.typing keys))
    (scancode : UInt8) :
    KeyboardInv (keyboardHandler k scancode) (Phase.step (.typing keys) (.key scancode)) := by
  obtain ⟨hready, hholds⟩ := h
  have hbound := (editLine_bounds keys).1
  have hpos := hholds.pos
  rw [Phase.step]
  cases hkey : keyOf scancode with
  | nothing =>
    rw [if_neg (by simp), keyboardHandler_eq, hkey, KeyboardInv, editLine_concat, hkey]
    exact ⟨hready, hholds⟩
  | enter =>
    -- The line is as it was, and nothing came after it yet.
    rw [if_pos rfl, keyboardHandler_eq, hkey]
    refine ⟨rfl, hholds.take (Nat.sub_le _ _) rfl ?_⟩
    exact hpos
  | erase =>
    obtain ⟨herased, hsame⟩ := hholds.erase hkey
    rw [if_neg (by simp), KeyboardInv, editLine_concat, hkey, editKey_erase,
      List.dropLast_eq_take]
    exact ⟨hsame.trans hready, herased⟩
  | char c =>
    rw [if_neg (by simp), keyboardHandler_eq, hkey, KeyboardInv, editLine_concat, hkey,
      editKey_char]
    by_cases hroom : (editLine keys).length < 255
    · rw [if_pos hroom]
      simp only
      rw [if_pos ⟨by omega, hready⟩]
      exact ⟨hready, hholds.append c rfl rfl⟩
    · rw [if_neg hroom]
      simp only
      rw [if_neg fun hc => hroom (by omega)]
      exact ⟨hready, hholds⟩

/-- One key after Enter: only backspace still gets at the line. -/
theorem KeyboardInv.keyLater {k : Keyboard} {keys later : List UInt8}
    (h : KeyboardInv k (.entered keys later)) (scancode : UInt8) :
    KeyboardInv (keyboardHandler k scancode) (.entered keys (later ++ [scancode])) := by
  obtain ⟨hready, hholds⟩ := h
  have hsame (hne : keyOf scancode ≠ .erase) :
      leftOf keys (later ++ [scancode]) = leftOf keys later := by
    simp [leftOf, erasures, hne]
  cases hkey : keyOf scancode with
  | nothing =>
    rw [KeyboardInv, hsame (by simp [hkey]), keyboardHandler_eq, hkey]
    exact ⟨hready, hholds⟩
  | enter =>
    rw [KeyboardInv, hsame (by simp [hkey]), keyboardHandler_eq, hkey]
    exact ⟨rfl, hholds.pos, hholds.chars⟩
  | char c =>
    rw [KeyboardInv, hsame (by simp [hkey]), keyboardHandler_eq, hkey]
    simp only
    rw [if_neg fun hc => by simp [hready] at hc]
    exact ⟨hready, hholds⟩
  | erase =>
    obtain ⟨herased, hready'⟩ := hholds.erase hkey
    have hone : leftOf keys (later ++ [scancode]) =
        (leftOf keys later).take ((leftOf keys later).length - 1) := by
      have hcount : erasures (later ++ [scancode]) = erasures later + 1 := by
        simp [erasures, hkey]
      rw [leftOf, leftOf, hcount, List.take_take, List.length_take]
      congr 1
      omega
    rw [KeyboardInv, hone]
    exact ⟨hready'.trans hready, herased⟩

/-! ## The call -/

/-- The buffer holds `line` as a C string. -/
structure Delivers (buffer : Int → UInt8) (line : List UInt8) : Prop where
  chars : ∀ (i : Nat) (h : i < line.length), buffer i = (line)[i]
  stop : buffer line.length = 0
  no_nul : 0 ∉ line

/-- A C string ends at the first NUL. -/
theorem Delivers.unique {buffer : Int → UInt8} {line line' : List UInt8}
    (h : Delivers buffer line) (h' : Delivers buffer line') : line = line' := by
  have hle : ∀ {l l' : List UInt8}, Delivers buffer l → Delivers buffer l' →
      ¬ l.length < l'.length := by
    intro l l' hl hl' hlt
    have hget := hl'.chars l.length hlt
    rw [hl.stop] at hget
    exact hl'.no_nul (hget ▸ List.getElem_mem hlt)
  have hlen : line.length = line'.length := by
    have h₁ := hle h h'
    have h₂ := hle h' h
    omega
  refine List.ext_getElem hlen fun i hi hi' => ?_
  rw [← h.chars i hi, ← h'.chars i hi']

/-- The loop copies characters up to the first of its two bounds. -/
theorem copyLine_eq (k : Keyboard) (maxSize : Int) : ∀ (fuel : Nat) (i : Int)
    (buffer : Int → UInt8), i ≤ k.bufferPos → k.bufferPos ≤ i + fuel → i ≤ maxSize - 1 →
    copyLine k maxSize fuel i buffer = (min k.bufferPos (maxSize - 1), fun j =>
      if i ≤ j ∧ j < min k.bufferPos (maxSize - 1) then k.keyBuffer j else buffer j) := by
  intro fuel
  induction fuel with
  | zero =>
    intro i buffer hpos hfuel hmax
    have hstop : min k.bufferPos (maxSize - 1) = i := by omega
    rw [copyLine, hstop]
    refine Prod.ext rfl (funext fun j => ?_)
    exact (if_neg (by omega)).symm
  | succ fuel ih =>
    intro i buffer hpos hfuel hmax
    rw [copyLine]
    by_cases hgo : i < k.bufferPos ∧ i < maxSize - 1
    · rw [if_pos hgo, ih (i + 1) _ (by omega) (by omega) (by omega)]
      refine Prod.ext rfl (funext fun j => ?_)
      simp only
      by_cases hj : j = i
      · subst hj
        rw [if_neg (by omega), if_pos (by omega), Function.update_self]
      · by_cases hin : i ≤ j ∧ j < min k.bufferPos (maxSize - 1)
        · rw [if_pos (by omega), if_pos hin]
        · rw [if_neg (by omega), if_neg hin, Function.update_of_ne hj]
    · have hstop : min k.bufferPos (maxSize - 1) = i := by omega
      rw [if_neg hgo, hstop]
      refine Prod.ext rfl (funext fun j => ?_)
      exact (if_neg (by omega)).symm

/-- A successful call delivers the beginning of the line it finds. -/
theorem getInputBuffer_eq {k : Keyboard} {line : List UInt8} (h : Holds k line)
    (hready : k.lineReady = true) (hzero : 0 ∉ line) (buffer : Int → UInt8) {maxSize : Int}
    (hmax : 1 ≤ maxSize) :
    (getInputBuffer k buffer maxSize).1 = true ∧
      Delivers (getInputBuffer k buffer maxSize).2.1 (line.take (maxSize - 1).toNat) := by
  have hpos := h.pos
  have hcopy := copyLine_eq k maxSize k.bufferPos.toNat 0 buffer (by omega) (by omega) (by omega)
  have hcall : getInputBuffer k buffer maxSize = (true, Function.update (fun j =>
      if 0 ≤ j ∧ j < min k.bufferPos (maxSize - 1) then k.keyBuffer j else buffer j)
        (min k.bufferPos (maxSize - 1)) 0, { k with bufferPos := 0, lineReady := false }) := by
    rw [getInputBuffer, hready, if_neg (by simp), hcopy]
  rw [hcall]
  have hlen : ((line.take (maxSize - 1).toNat).length : Int) = min k.bufferPos (maxSize - 1) := by
    rw [List.length_take]
    omega
  refine ⟨rfl, fun i hi => ?_, ?_, fun hmem => hzero (List.mem_of_mem_take hmem)⟩
  · have hi' : (i : Int) < min k.bufferPos (maxSize - 1) := by omega
    have hlt : i < line.length := by omega
    simp only
    rw [Function.update_of_ne (by omega), if_pos ⟨by omega, hi'⟩, List.getElem_take]
    exact h.chars i hlt
  · rw [hlen]
    simp only [Function.update_self]

theorem KeyboardInv.get {k : Keyboard} {phase : Phase} (h : KeyboardInv k phase) (maxSize : Int)
    (buffer : Int → UInt8) :
    KeyboardInv (getInputBuffer k buffer maxSize).2.2 (phase.step (.get maxSize)) := by
  cases phase with
  | typing keys =>
    obtain ⟨hready, hholds⟩ := h
    rw [getInputBuffer, hready]
    exact ⟨hready, hholds⟩
  | entered keys later =>
    obtain ⟨hready, _⟩ := h
    rw [getInputBuffer, hready]
    exact ⟨rfl, rfl, fun i hi => absurd hi (Nat.not_lt_zero i)⟩

theorem KeyboardInv.step {k : Keyboard} {phase : Phase} (h : KeyboardInv k phase)
    (e : KeyEvent) : KeyboardInv (k.step e) (phase.step e) := by
  cases e with
  | key scancode =>
    cases phase with
    | typing keys => exact h.key scancode
    | entered keys later => exact h.keyLater scancode
  | get maxSize => exact h.get maxSize _

/-- The run lemma. -/
theorem KeyboardInv.run (k : Keyboard) (es : List KeyEvent) :
    KeyboardInv ((initKeyboard k).run es) (history es) := by
  induction es using List.reverseRecOn with
  | nil => exact ⟨rfl, rfl, fun i hi => absurd hi (Nat.not_lt_zero i)⟩
  | append_singleton es e ih =>
    have h := ih.step e
    rwa [Keyboard.run, history, List.foldl_append, List.foldl_append]

/-- Backspaces after Enter have not come to the characters that are delivered. -/
def Undamaged (keys later : List UInt8) (maxSize : Int) : Prop :=
  erasures later = 0 ∨ editLine keys = [] ∨
    (maxSize - 1).toNat ≤ (editLine keys).length - erasures later

theorem take_leftOf_iff (keys later : List UInt8) (maxSize : Int) :
    (leftOf keys later).take (maxSize - 1).toNat = (editLine keys).take (maxSize - 1).toNat ↔
      Undamaged keys later maxSize := by
  have hnil : editLine keys = [] ↔ (editLine keys).length = 0 := List.length_eq_zero_iff.symm
  rw [leftOf, List.take_take, List.take_eq_take_iff, Undamaged, hnil]
  omega

/-- **The line discipline.** Whatever keys and calls came before: the position stays in range,
a release does nothing, a call succeeds exactly when Enter has been pressed since the last one
that did, and it delivers the line as it was then exactly when no backspace came to it since. -/
theorem line_discipline (k : Keyboard) (es : List KeyEvent) :
    0 ≤ ((initKeyboard k).run es).bufferPos ∧ ((initKeyboard k).run es).bufferPos ≤ 255 ∧
    (∀ scancode, scancode &&& 0x80 ≠ 0 →
      keyboardHandler ((initKeyboard k).run es) scancode = (initKeyboard k).run es) ∧
    ∀ (buffer : Int → UInt8) (maxSize : Int), 1 ≤ maxSize →
      match history es with
      | .typing _ => (getInputBuffer ((initKeyboard k).run es) buffer maxSize).1 = false
      | .entered keys later =>
        (getInputBuffer ((initKeyboard k).run es) buffer maxSize).1 = true ∧
          (Delivers (getInputBuffer ((initKeyboard k).run es) buffer maxSize).2.1
            ((editLine keys).take (maxSize - 1).toNat) ↔ Undamaged keys later maxSize) := by
  have h := KeyboardInv.run k es
  generalize (initKeyboard k).run es = s at h
  generalize history es = phase at h
  have hbuf : 0 ≤ s.bufferPos ∧ s.bufferPos ≤ 255 := by
    cases phase with
    | typing keys =>
      have := (editLine_bounds keys).1
      have := h.2.pos
      omega
    | entered keys later =>
      have := (editLine_bounds keys).1
      have hpos := h.2.pos
      rw [leftOf, List.length_take] at hpos
      omega
  refine ⟨hbuf.1, hbuf.2, fun scancode hrel => if_neg hrel, fun buffer maxSize hmax => ?_⟩
  cases phase with
  | typing keys =>
    simp only [getInputBuffer, h.1]
    rfl
  | entered keys later =>
    obtain ⟨hready, hholds⟩ := h
    have hzero : 0 ∉ leftOf keys later := fun hmem =>
      (editLine_bounds keys).2 (List.mem_of_mem_take hmem)
    obtain ⟨hok, hdel⟩ := getInputBuffer_eq hholds hready hzero buffer hmax
    refine ⟨hok, ?_⟩
    rw [← take_leftOf_iff keys later maxSize]
    constructor
    · exact fun hline => hdel.unique hline
    · exact fun heq => heq ▸ hdel

/-- `a`, `b`, Enter: the line is delivered. -/
theorem line_discipline_ab :
    Delivers (getInputBuffer ((initKeyboard ⟨fun _ => 0, 0, false, []⟩).run
      [.key 0x1E, .key 0x30, .key 0x1C]) (fun _ => 0) 256).2.1 [97, 98] := by
  have h := (line_discipline ⟨fun _ => 0, 0, false, []⟩ [.key 0x1E, .key 0x30, .key 0x1C]).2.2.2
    (fun _ => 0) 256 (by decide)
  exact h.2.mpr (Or.inl (by decide))

/-- `a`, `b`, Enter, backspace: the backspace comes too late and is obeyed all the same. -/
theorem backspace_after_enter :
    history [.key 0x1E, .key 0x30, .key 0x1C, .key 0x0E] = .entered [0x1E, 0x30] [0x0E] ∧
      editLine [0x1E, 0x30] = [97, 98] ∧
      ¬ Delivers (getInputBuffer ((initKeyboard ⟨fun _ => 0, 0, false, []⟩).run
        [.key 0x1E, .key 0x30, .key 0x1C, .key 0x0E]) (fun _ => 0) 256).2.1 [97, 98] := by
  refine ⟨by decide, by decide, fun h => ?_⟩
  have hb := h.chars 1 (by decide)
  revert hb
  decide

end ScratchOs.Drivers
