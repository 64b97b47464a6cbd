import ScratchOs.Lib.Bytes

/-!
# Address spaces

Code reaches memory through a translation: an address goes through `translate`, which may
depend on the memory itself (page tables live there) and may have no answer (a fault). The
operations below are what a processor does with that: a load or a store of a byte, of a word
(all four bytes are translated before the first is written), and a byte-by-byte fill and copy.

A `Window` is a range of addresses that behaves like plain memory: every address in it has a
physical one, no two share it, and no store inside the range moves any of them. Inside a
window the operations are those of `Bytes` on the window's contents
(`Shows.load32`, `Shows.store8`, `Shows.store32`, `Shows.fill`, `Shows.copy`), and nothing but the
memory behind the window changes (`Touches`).

The translation is a function of the state, and the state has the memory in it. So the third field
of a `Window`, `stable`, is the one that has to be earned: whoever has page tables in memory has to
show that the tables are not behind the window. It is stated for every state that `Touches` allows
and not for one store, because then it survives a run of stores by transitivity alone
(`Touches.trans`), and `Window.touch` needs no argument about the tables.

A fault is `none`, and a word access faults before it has written anything. On a processor that is
so as well; a byte-by-byte copy, on the other hand, has written what came before the fault, and is
therefore a recursion over bytes and not one operation.
-/

set_option autoImplicit false

namespace ScratchOs

/-- A state with physical memory, seen through a translation. -/
class AddressSpace (σ : Type) where
  translate : σ → Nat → Option Nat
  mem : σ → Bytes.Mem
  setMem : σ → Bytes.Mem → σ
  mem_setMem : ∀ s m, mem (setMem s m) = m
  setMem_setMem : ∀ s m m', setMem (setMem s m) m' = setMem s m'
  setMem_mem : ∀ s, setMem s (mem s) = s

namespace AddressSpace

attribute [simp] mem_setMem setMem_setMem setMem_mem

variable {σ : Type} [AddressSpace σ]

def load8 (s : σ) (a : Nat) : Option UInt8 := (translate s a).map (mem s)

def load32 (s : σ) (a : Nat) : Option Nat := do
  let b₀ ← load8 s a
  let b₁ ← load8 s (a + 1)
  let b₂ ← load8 s (a + 2)
  let b₃ ← load8 s (a + 3)
  some (Bytes.word b₀ b₁ b₂ b₃)

def store8 (s : σ) (a : Nat) (v : UInt8) : Option σ := do
  let p ← translate s a
  some (setMem s (Bytes.store8 (mem s) p v))

def store32 (s : σ) (a w : Nat) : Option σ := do
  let p₀ ← translate s a
  let p₁ ← translate s (a + 1)
  let p₂ ← translate s (a + 2)
  let p₃ ← translate s (a + 3)
  some (setMem s (Bytes.store8 (Bytes.store8 (Bytes.store8 (Bytes.store8 (mem s)
    p₀ (Bytes.byteOf w 0)) p₁ (Bytes.byteOf w 1)) p₂ (Bytes.byteOf w 2)) p₃ (Bytes.byteOf w 3)))

/-- `for (i = 0; i < n; i++) ((uint8_t*)a)[i] = v` -/
def fill (v : UInt8) : Nat → Nat → σ → Option σ
  | 0, _, s => some s
  | n + 1, a, s => do
    let s ← store8 s a v
    fill v n (a + 1) s

/-- `for (i = 0; i < n; i++) ((uint8_t*)d)[i] = ((uint8_t*)a)[i]` -/
def copy : Nat → Nat → Nat → σ → Option σ
  | 0, _, _, s => some s
  | n + 1, d, a, s => do
    let v ← load8 s a
    let s ← store8 s d v
    copy n (d + 1) (a + 1) s

/-! Wherever they go, stores change the memory and nothing else. -/

theorem store8_setMem {s s' : σ} {a : Nat} {v : UInt8} (h : store8 s a v = some s') :
    ∃ m, s' = setMem s m := by
  obtain ⟨p, _, h⟩ := Option.bind_eq_some_iff.mp h
  exact ⟨_, (Option.some.inj h).symm⟩

theorem store32_setMem {s s' : σ} {a w : Nat} (h : store32 s a w = some s') :
    ∃ m, s' = setMem s m := by
  obtain ⟨p₀, _, h⟩ := Option.bind_eq_some_iff.mp h
  obtain ⟨p₁, _, h⟩ := Option.bind_eq_some_iff.mp h
  obtain ⟨p₂, _, h⟩ := Option.bind_eq_some_iff.mp h
  obtain ⟨p₃, _, h⟩ := Option.bind_eq_some_iff.mp h
  exact ⟨_, (Option.some.inj h).symm⟩

/-- By recursion on the number of bytes, as the loop is. -/
theorem fill_setMem {v : UInt8} : ∀ {n a : Nat} {s s' : σ}, fill v n a s = some s' →
    ∃ m, s' = setMem s m
  | 0, a, s, s', h => ⟨mem s, by rw [setMem_mem]; exact (Option.some.inj h).symm⟩
  | n + 1, a, s, s', h => by
    obtain ⟨s₁, h₁, h⟩ := Option.bind_eq_some_iff.mp h
    obtain ⟨m₁, rfl⟩ := store8_setMem h₁
    obtain ⟨m, rfl⟩ := fill_setMem h
    exact ⟨m, setMem_setMem s m₁ m⟩

/-! ## Windows -/

/-- Physical address `p` lies behind `[lo, hi)`. -/
def Behind (τ : Nat → Nat) (lo hi p : Nat) : Prop := ∃ a, lo ≤ a ∧ a < hi ∧ τ a = p

/-- `s'` is `s` with another memory, the same except behind the window. -/
def Touches (τ : Nat → Nat) (lo hi : Nat) (s s' : σ) : Prop :=
  ∃ m, s' = setMem s m ∧ ∀ p, ¬ Behind τ lo hi p → m p = mem s p

/-- `[lo, hi)` behaves like plain memory, address `a` of it being at physical address `τ a`. -/
structure Window (s : σ) (lo hi : Nat) (τ : Nat → Nat) : Prop where
  translate : ∀ a, lo ≤ a → a < hi → translate s a = some (τ a)
  inj : ∀ a b, lo ≤ a → a < hi → lo ≤ b → b < hi → τ a = τ b → a = b
  stable : ∀ s', Touches τ lo hi s s' → ∀ a, lo ≤ a → a < hi →
    AddressSpace.translate s' a = some (τ a)

/-- The window shows `m`. -/
def Shows (s : σ) (lo hi : Nat) (τ : Nat → Nat) (m : Bytes.Mem) : Prop :=
  Window s lo hi τ ∧ ∀ a, lo ≤ a → a < hi → mem s (τ a) = m a

theorem Touches.refl (τ : Nat → Nat) (lo hi : Nat) (s : σ) : Touches τ lo hi s s :=
  ⟨mem s, (setMem_mem s).symm, fun _ _ => rfl⟩

theorem Touches.trans {τ : Nat → Nat} {lo hi : Nat} {s s' s'' : σ}
    (h : Touches τ lo hi s s') (h' : Touches τ lo hi s' s'') : Touches τ lo hi s s'' := by
  obtain ⟨m, rfl, hm⟩ := h
  obtain ⟨m', rfl, hm'⟩ := h'
  refine ⟨m', setMem_setMem s m m', fun p hp => ?_⟩
  rw [hm' p hp, mem_setMem, hm p hp]

/-- Stores to a window leave it one: the tables it goes through are not behind it. -/
theorem Window.touch {s s' : σ} {lo hi : Nat} {τ : Nat → Nat} (h : Window s lo hi τ)
    (ht : Touches τ lo hi s s') : Window s' lo hi τ :=
  ⟨h.stable s' ht, h.inj, fun s'' ht' => h.stable s'' (ht.trans ht')⟩

/-- A part of a window is one. -/
theorem Window.narrow {s : σ} {lo lo' hi : Nat} {τ : Nat → Nat} (h : Window s lo hi τ)
    (hlo : lo ≤ lo') : Window s lo' hi τ where
  translate a hloa hhia := h.translate a (Nat.le_trans hlo hloa) hhia
  inj a b hloa hhia hlob hhib :=
    h.inj a b (Nat.le_trans hlo hloa) hhia (Nat.le_trans hlo hlob) hhib
  stable s' ht a hloa hhia := by
    refine h.stable s' ?_ a (Nat.le_trans hlo hloa) hhia
    obtain ⟨m, hs, hm⟩ := ht
    refine ⟨m, hs, fun p hp => hm p ?_⟩
    rintro ⟨b, hlob, hhib, hτ⟩
    exact hp ⟨b, Nat.le_trans hlo hlob, hhib, hτ⟩

section Access

variable {s : σ} {lo hi : Nat} {τ : Nat → Nat} {m : Bytes.Mem}

/-! The accesses as they are on plain memory. A load finds what the window shows, a store succeeds
and shows it from there on; what comes after needs `translate` no more. -/

theorem Shows.load8 (h : Shows s lo hi τ m) {a : Nat} (hlo : lo ≤ a) (hhi : a < hi) :
    load8 s a = some (m a) := by
  rw [AddressSpace.load8, h.1.translate a hlo hhi, Option.map_some, h.2 a hlo hhi]

theorem Shows.load32 (h : Shows s lo hi τ m) {a : Nat} (hlo : lo ≤ a) (hhi : a + 4 ≤ hi) :
    load32 s a = some (Bytes.load32 m a) := by
  rw [AddressSpace.load32, h.load8 hlo (by omega), h.load8 (by omega) (by omega),
    h.load8 (by omega) (by omega), h.load8 (by omega) (by omega)]
  rfl

/-- Replacing the memory behind one address of a window. Other addresses keep what they show, since
no two of them are at one physical address. -/
theorem Shows.set (h : Shows s lo hi τ m) {a : Nat} (hlo : lo ≤ a) (hhi : a < hi) (v : UInt8) :
    Shows (setMem s (Bytes.store8 (mem s) (τ a) v)) lo hi τ (Bytes.store8 m a v) ∧
      Touches τ lo hi s (setMem s (Bytes.store8 (mem s) (τ a) v)) := by
  have ht : Touches τ lo hi s (setMem s (Bytes.store8 (mem s) (τ a) v)) := by
    refine ⟨_, rfl, fun p hp => Bytes.store8_of_ne v fun hpa => hp ?_⟩
    exact ⟨a, hlo, hhi, hpa.symm⟩
  refine ⟨⟨h.1.touch ht, fun c hc₁ hc₂ => ?_⟩, ht⟩
  rw [mem_setMem, Bytes.store8_apply, Bytes.store8_apply]
  by_cases hca : c = a
  · subst hca
    simp
  · rw [if_neg hca, if_neg fun hτ => hca (h.1.inj c a hc₁ hc₂ hlo hhi hτ), h.2 c hc₁ hc₂]

theorem Shows.store8 (h : Shows s lo hi τ m) {a : Nat} (hlo : lo ≤ a) (hhi : a < hi)
    (v : UInt8) : ∃ s', store8 s a v = some s' ∧ Shows s' lo hi τ (Bytes.store8 m a v) ∧
      Touches τ lo hi s s' := by
  obtain ⟨hs, ht⟩ := h.set hlo hhi v
  exact ⟨_, by rw [AddressSpace.store8, h.1.translate a hlo hhi]; rfl, hs, ht⟩

/-- Four bytes, which may be on two pages: each of them is looked up by itself. -/
theorem Shows.store32 (h : Shows s lo hi τ m) {a : Nat} (hlo : lo ≤ a) (hhi : a + 4 ≤ hi)
    (w : Nat) : ∃ s', store32 s a w = some s' ∧ Shows s' lo hi τ (Bytes.store32 m a w) ∧
      Touches τ lo hi s s' := by
  obtain ⟨hs₀, ht₀⟩ := h.set hlo (by omega) (Bytes.byteOf w 0)
  obtain ⟨hs₁, ht₁⟩ := hs₀.set (a := a + 1) (by omega) (by omega) (Bytes.byteOf w 1)
  obtain ⟨hs₂, ht₂⟩ := hs₁.set (a := a + 2) (by omega) (by omega) (Bytes.byteOf w 2)
  obtain ⟨hs₃, ht₃⟩ := hs₂.set (a := a + 3) (by omega) (by omega) (Bytes.byteOf w 3)
  have ht := ((ht₀.trans ht₁).trans ht₂).trans ht₃
  simp only [mem_setMem, setMem_setMem] at hs₃ ht
  refine ⟨_, ?_, hs₃, ht⟩
  rw [AddressSpace.store32, h.1.translate a hlo (by omega),
    h.1.translate (a + 1) (by omega) (by omega), h.1.translate (a + 2) (by omega) (by omega),
    h.1.translate (a + 3) (by omega) (by omega)]
  rfl

/-- In a window the bytes of a word can as well be stored one after the other. -/
theorem Shows.store32_eq (h : Shows s lo hi τ m) {a : Nat} (hlo : lo ≤ a) (hhi : a + 4 ≤ hi)
    (w : Nat) : AddressSpace.store32 s a w =
      (AddressSpace.store8 s a (Bytes.byteOf w 0)).bind fun s =>
        (AddressSpace.store8 s (a + 1) (Bytes.byteOf w 1)).bind fun s =>
          (AddressSpace.store8 s (a + 2) (Bytes.byteOf w 2)).bind fun s =>
            AddressSpace.store8 s (a + 3) (Bytes.byteOf w 3) := by
  have hstored {s : σ} {m : Bytes.Mem} (h : Shows s lo hi τ m) {a : Nat} (hlo : lo ≤ a)
      (hhi : a < hi) (v : UInt8) : AddressSpace.store8 s a v =
        some (setMem s (Bytes.store8 (mem s) (τ a) v)) := by
    rw [AddressSpace.store8, h.1.translate a hlo hhi]
    rfl
  obtain ⟨hs₀, _⟩ := h.set hlo (by omega) (Bytes.byteOf w 0)
  obtain ⟨hs₁, _⟩ := hs₀.set (a := a + 1) (by omega) (by omega) (Bytes.byteOf w 1)
  obtain ⟨hs₂, _⟩ := hs₁.set (a := a + 2) (by omega) (by omega) (Bytes.byteOf w 2)
  rw [hstored h hlo (by omega), Option.bind_some, hstored hs₀ (by omega) (by omega),
    Option.bind_some, hstored hs₁ (by omega) (by omega), Option.bind_some,
    hstored hs₂ (by omega) (by omega), AddressSpace.store32, h.1.translate a hlo (by omega),
    h.1.translate (a + 1) (by omega) (by omega), h.1.translate (a + 2) (by omega) (by omega),
    h.1.translate (a + 3) (by omega) (by omega)]
  simp only [Option.bind_eq_bind, Option.bind_some, mem_setMem, setMem_setMem]

/-- The loop of `fill` does to the window what `Bytes.fill` does to memory. -/
theorem Shows.fill (v : UInt8) : ∀ {n a : Nat} {s : σ} {m : Bytes.Mem}, Shows s lo hi τ m →
    lo ≤ a → a + n ≤ hi → ∃ s', fill v n a s = some s' ∧
      Shows s' lo hi τ (Bytes.fill m a n v) ∧ Touches τ lo hi s s'
  | 0, a, s, m, h, _, _ => by
    rw [Bytes.fill_zero]
    exact ⟨s, rfl, h, Touches.refl τ lo hi s⟩
  | n + 1, a, s, m, h, hlo, hhi => by
    obtain ⟨s₁, hs₁, hshow₁, ht₁⟩ := h.store8 hlo (by omega) v
    obtain ⟨s₂, hs₂, hshow₂, ht₂⟩ := Shows.fill v (n := n) (a := a + 1) hshow₁ (by omega) (by omega)
    rw [Bytes.fill_store8] at hshow₂
    refine ⟨s₂, ?_, hshow₂, ht₁.trans ht₂⟩
    rw [AddressSpace.fill, hs₁]
    exact hs₂

/-- Bytes from outside a window into it: what they are read through stays, whatever is written to
the window, and none of them is behind it. -/
theorem Shows.copy {τ' : Nat → Nat} : ∀ {n d a : Nat} {s : σ} {m : Bytes.Mem},
    Shows s lo hi τ m → lo ≤ d → d + n ≤ hi →
    (∀ s', Touches τ lo hi s s' → ∀ c, a ≤ c → c < a + n → translate s' c = some (τ' c)) →
    (∀ c, a ≤ c → c < a + n → ¬ Behind τ lo hi (τ' c)) →
    ∃ s' m', copy n d a s = some s' ∧ Shows s' lo hi τ m' ∧ Touches τ lo hi s s' ∧
      (∀ i < n, m' (d + i) = mem s (τ' (a + i))) ∧
      ∀ c, c < d ∨ d + n ≤ c → m' c = m c
  | 0, d, a, s, m, h, _, _, _, _ =>
    ⟨s, m, rfl, h, Touches.refl τ lo hi s, fun i hi => absurd hi (Nat.not_lt_zero i),
      fun _ _ => rfl⟩
  | n + 1, d, a, s, m, h, hlo, hhi, hsource, hout => by
    obtain ⟨s₁, hs₁, hshow₁, ht₁⟩ := h.store8 hlo (by omega) (mem s (τ' a))
    have hload : AddressSpace.load8 s a = some (mem s (τ' a)) := by
      rw [AddressSpace.load8, hsource s (Touches.refl τ lo hi s) a (Nat.le_refl a) (by omega),
        Option.map_some]
    obtain ⟨s₂, m₂, hs₂, hshow₂, ht₂, hcopied, hothers⟩ := Shows.copy (n := n) (d := d + 1)
      (a := a + 1) hshow₁ (by omega) (by omega)
      (fun s' ht' c hlo hhi => hsource s' (ht₁.trans ht') c (by omega) (by omega))
      (fun c hlo hhi => hout c (by omega) (by omega))
    refine ⟨s₂, m₂, ?_, hshow₂, ht₁.trans ht₂, fun i hi => ?_, fun c hc => ?_⟩
    · rw [AddressSpace.copy, hload]
      exact (Option.bind_some ..).trans (Option.bind_eq_some_iff.mpr ⟨s₁, hs₁, hs₂⟩)
    · cases i with
      | zero =>
        rw [Nat.add_zero, Nat.add_zero, hothers d (by omega), Bytes.store8_same]
      | succ i =>
        -- The byte was not written to by the first store.
        obtain ⟨m₁, rfl, hm₁⟩ := ht₁
        have hkept := hm₁ _ (hout (a + (i + 1)) (by omega) (by omega))
        have hbyte := hcopied i (by omega)
        rw [mem_setMem] at hbyte
        rw [show d + (i + 1) = d + 1 + i by omega, hbyte, ← hkept,
          show a + 1 + i = a + (i + 1) by omega]
    · rw [hothers c (by omega), Bytes.store8_of_ne _ (by omega)]

end Access

/-! ### One page more

A window grows at its upper end, by a page whose physical address is new. `addPage` is the
translation afterwards. That no two addresses share a byte then has three cases, of which only the
mixed one needs the hypothesis that the page is new. -/

/-- The window of `τ` up to `hi`, with the page at physical address `p` behind it. -/
def addPage (τ : Nat → Nat) (hi p a : Nat) : Nat := if a < hi then τ a else p + a % 4096

/-- No two addresses of the larger window are at one byte. -/
theorem addPage_inj {τ : Nat → Nat} {lo hi p : Nat} (hpage : hi % 4096 = 0)
    (hinj : ∀ a b, lo ≤ a → a < hi → lo ≤ b → b < hi → τ a = τ b → a = b)
    (hnew : ∀ a b, lo ≤ a → a < hi → τ a ≠ p + b % 4096) (a b : Nat) (hloa : lo ≤ a)
    (hhia : a < hi + 4096) (hlob : lo ≤ b) (hhib : b < hi + 4096)
    (heq : addPage τ hi p a = addPage τ hi p b) : a = b := by
  unfold addPage at heq
  by_cases ha : a < hi
  · by_cases hb : b < hi
    · rw [if_pos ha, if_pos hb] at heq
      exact hinj a b hloa ha hlob hb heq
    · rw [if_pos ha, if_neg hb] at heq
      exact absurd heq (hnew a b hloa ha)
  · by_cases hb : b < hi
    · rw [if_neg ha, if_pos hb] at heq
      exact absurd heq.symm (hnew b a hlob hb)
    · rw [if_neg ha, if_neg hb] at heq
      omega

/-! ### Runs of stores

A function that writes several fields is followed through `View`: it carries both what the window
shows now and where all of it came from, so that the steps between are not mentioned in the
result. -/

/-- `s` is what became of `s₀` by writing behind the window, which now shows `m`. -/
structure View (s₀ s : σ) (lo hi : Nat) (τ : Nat → Nat) (m : Bytes.Mem) : Prop where
  shows : Shows s lo hi τ m
  touches : Touches τ lo hi s₀ s

section View

variable {s₀ s : σ} {lo hi : Nat} {τ : Nat → Nat} {m : Bytes.Mem}

theorem Shows.view (h : Shows s lo hi τ m) : View s s lo hi τ m := ⟨h, Touches.refl τ lo hi s⟩

theorem View.store8 (h : View s₀ s lo hi τ m) {a : Nat} (hlo : lo ≤ a) (hhi : a < hi)
    (v : UInt8) : ∃ s', store8 s a v = some s' ∧ View s₀ s' lo hi τ (Bytes.store8 m a v) := by
  obtain ⟨s', hs', hshow, ht⟩ := h.shows.store8 hlo hhi v
  exact ⟨s', hs', hshow, h.touches.trans ht⟩

theorem View.store32 (h : View s₀ s lo hi τ m) {a : Nat} (hlo : lo ≤ a) (hhi : a + 4 ≤ hi)
    (w : Nat) : ∃ s', store32 s a w = some s' ∧ View s₀ s' lo hi τ (Bytes.store32 m a w) := by
  obtain ⟨s', hs', hshow, ht⟩ := h.shows.store32 hlo hhi w
  exact ⟨s', hs', hshow, h.touches.trans ht⟩

end View

end AddressSpace

end ScratchOs
