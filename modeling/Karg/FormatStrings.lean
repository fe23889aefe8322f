import Karg.Execution
import Karg.Log
import Karg.StackArgs

namespace Karg.FormatStrings

open ByteMemory ProcStack StackArgs Log Execution

def TextAt (m : Memory) : Nat → List UInt8 → Prop
  | a, [] => m.byte a = 0
  | a, c :: s => c ≠ 0 ∧ m.byte a = c ∧ TextAt m (a + 1) s

def UpperHex (c : UInt8) : Prop := 0x30 ≤ c ∧ c ≤ 0x39 ∨ 0x41 ≤ c ∧ c ≤ 0x46

instance (c : UInt8) : Decidable (UpperHex c) := inferInstanceAs (Decidable (_ ∨ _))

def digitValue (c : UInt8) : Nat := if c ≤ 0x39 then c.toNat - 0x30 else c.toNat - 0x41 + 10

def decodeHex : List UInt8 → Nat
  | [] => 0
  | c :: digits => digitValue c * 16 ^ digits.length + decodeHex digits

inductive Expansion (m : Memory) : List UInt8 → List Nat → List UInt8 → Prop
  | nil (args) : Expansion m [] args []
  | char (c) {fs args out} (hc : c ≠ 0x25) (h : Expansion m fs args out) : Expansion m (c :: fs) args (c :: out)
  | string {str s fs args out} (hs : TextAt m str s) (h : Expansion m fs args out) :
      Expansion m (0x25 :: 0x73 :: fs) (str :: args) (s ++ out)
  | pointer {addr digits fs args out} (ha : addr < 2 ^ 64) (hl : digits.length = 16) (hu : ∀ c ∈ digits, UpperHex c)
      (hd : decodeHex digits = addr) (h : Expansion m fs args out) :
      Expansion m (0x25 :: 0x70 :: fs) (addr :: args) (digits ++ out)
  | other (c) {fs args out} (hs : c ≠ 0x73) (hp : c ≠ 0x70) (h : Expansion m fs args out) :
      Expansion m (0x25 :: c :: fs) args out
  | last (args) : Expansion m [0x25] args []

def Matching (m : Memory) (fs : List UInt8) (args : List Nat) : Prop := ∃ out, Expansion m fs args out

def dangling : List UInt8 → Bool
  | [] => false
  | [c] => c = 0x25
  | c :: d :: fs => if c = 0x25 then dangling fs else dangling (d :: fs)

variable {m : Memory} {a fmt fuel : Nat} {s fs out : List UInt8} {args : List Nat} {t t' : Trace}

theorem dangling_char {c : UInt8} (hc : c ≠ 0x25) (fs : List UInt8) : dangling (c :: fs) = dangling fs := by
  cases fs with
  | nil => exact decide_eq_false hc
  | cons d fs => exact if_neg hc

theorem TextAt.str (h : TextAt m a s) : Str m a s.length := by
  induction s generalizing a with
  | nil => exact ⟨fun j hj => absurd hj (Nat.not_lt_zero j), h⟩
  | cons c s ih =>
      obtain ⟨hc, hb, hs⟩ := h
      constructor
      · intro j hj
        cases j with
        | zero => rwa [Nat.add_zero, hb]
        | succ j =>
            rw [Nat.add_comm j, ← Nat.add_assoc]
            exact (ih hs).before j (Nat.lt_of_succ_lt_succ hj)
      · rw [List.length_cons, Nat.add_comm s.length, ← Nat.add_assoc]
        exact (ih hs).last

theorem TextAt.bytes_eq (h : TextAt m a s) : bytes m a s.length = s := by
  induction s generalizing a with
  | nil => rfl
  | cons c s ih =>
      obtain ⟨-, hb, hs⟩ := h
      rw [bytes, List.length_cons, List.range'_succ, List.map_cons, hb]
      exact congrArg (c :: ·) (ih hs)

theorem TextAt.ending (h : TextAt m a s) : m.byte (a + s.length) = 0 := h.str.last

section Digits

theorem hexDigit_spec : ∀ n < 16, UpperHex (hexDigit n) ∧ digitValue (hexDigit n) = n := by decide

theorem nibble_eq (addr i : Nat) : addr >>> (i * 4) &&& 0xF = addr / 16 ^ i % 16 := by
  have hpow : 2 ^ (i * 4) = 16 ^ i := by rw [Nat.mul_comm, Nat.pow_mul]
  rw [Nat.shiftRight_eq_div_pow, hpow]
  exact Nat.and_two_pow_sub_one_eq_mod _ 4

/-- The loop for `%p` after `k` rounds. -/
theorem decodeHex_digits (addr k : Nat) :
    decodeHex ((List.range k).map fun i => hexDigit (addr >>> (i * 4) &&& 0xF)).reverse = addr % 16 ^ k := by
  induction k with
  | zero => rw [Nat.pow_zero, Nat.mod_one]; rfl
  | succ k ih =>
      have hn : digitValue (hexDigit (addr >>> (k * 4) &&& 0xF)) = addr / 16 ^ k % 16 := by
        rw [nibble_eq]
        exact (hexDigit_spec _ (Nat.mod_lt _ (by decide))).2
      rw [List.range_succ, List.map_append, List.reverse_append, List.map_singleton, List.reverse_singleton,
        List.singleton_append, decodeHex, ih, hn, List.length_reverse, List.length_map, List.length_range,
        Nat.mod_pow_succ, Nat.add_comm, Nat.mul_comm]

theorem pointerDigits_length (addr : Nat) : (pointerDigits addr).length = 16 := by
  rw [pointerDigits, List.length_reverse, List.length_map, List.length_range]

theorem pointerDigits_upper (addr : Nat) : ∀ c ∈ pointerDigits addr, UpperHex c := by
  intro c hc
  rw [pointerDigits, List.mem_reverse, List.mem_map] at hc
  obtain ⟨i, -, rfl⟩ := hc
  rw [nibble_eq]
  exact (hexDigit_spec _ (Nat.mod_lt _ (by decide))).1

theorem decodeHex_pointerDigits {addr : Nat} (h : addr < 2 ^ 64) : decodeHex (pointerDigits addr) = addr := by
  rw [pointerDigits, decodeHex_digits]
  exact Nat.mod_eq_of_lt h

end Digits

section Steps

variable {c : UInt8}

theorem kvprintf_char (h0 : c ≠ 0) (hc : c ≠ 0x25) (hb : m.byte fmt = c) (t : Trace) (args : List Nat) (fuel : Nat) :
    kvprintf m t fmt args (fuel + 1) = kvprintf m ⟨t.reads ++ [fmt], t.writes ++ [[c]]⟩ (fmt + 1) args fuel := by
  subst hb
  rw [kvprintf, if_neg h0, if_neg hc]
  rfl

theorem kvprintf_string {str : Nat} (hs : TextAt m str s) (hb : m.byte fmt = 0x25) (hd : m.byte (fmt + 1) = 0x73)
    (t : Trace) (args : List Nat) (hf : s.length < fuel) :
    kvprintf m t fmt (str :: args) (fuel + 1) =
      kvprintf m ⟨t.reads ++ [fmt, fmt + 1], t.writes ++ [s]⟩ (fmt + 2) args fuel := by
  rw [kvprintf, hb, if_neg (by decide), if_pos rfl]
  simp only [hd, ↓reduceIte, strLen_eq hs.str hf, Option.bind_eq_bind, Option.bind_some, Trace.read, Trace.write,
    hs.bytes_eq, List.append_assoc, List.singleton_append]

theorem kvprintf_pointer (hb : m.byte fmt = 0x25) (hd : m.byte (fmt + 1) = 0x70) (t : Trace) (addr : Nat)
    (args : List Nat) (fuel : Nat) : kvprintf m t fmt (addr :: args) (fuel + 1) =
      kvprintf m ⟨t.reads ++ [fmt, fmt + 1], t.writes ++ [pointerDigits addr]⟩ (fmt + 2) args fuel := by
  have hne : (0x70 : UInt8) ≠ 0x73 := by decide
  rw [kvprintf, hb, if_neg (by decide), if_pos rfl]
  simp only [hd, hne, ↓reduceIte, Trace.read, Trace.write, List.append_assoc, List.singleton_append]

theorem kvprintf_other (hb : m.byte fmt = 0x25) (hd : m.byte (fmt + 1) = c) (hs : c ≠ 0x73) (hp : c ≠ 0x70)
    (t : Trace) (args : List Nat) (fuel : Nat) : kvprintf m t fmt args (fuel + 1) =
      kvprintf m ⟨t.reads ++ [fmt, fmt + 1], t.writes⟩ (fmt + 2) args fuel := by
  rw [kvprintf, hb, if_neg (by decide), if_pos rfl]
  simp only [hd, hs, hp, ↓reduceIte, Trace.read, List.append_assoc, List.singleton_append]

theorem kvprintf_end (hb : m.byte fmt = 0) (t : Trace) (args : List Nat) (fuel : Nat) :
    kvprintf m t fmt args (fuel + 1) = some (t.read fmt) := by
  rw [kvprintf]
  exact if_pos hb

/-- Whatever lies behind it, the first byte that is read stays read. -/
theorem kvprintf_reads (h : kvprintf m t fmt args fuel = some t') : t.reads ++ [fmt] ⊆ t'.reads := by
  induction fuel generalizing t fmt args with
  | zero => cases h
  | succ fuel ih =>
      have hmore : ∀ {t₁ : Trace} {fmt₁ args₁}, kvprintf m t₁ fmt₁ args₁ fuel = some t' →
          t.reads ++ [fmt] ⊆ t₁.reads → t.reads ++ [fmt] ⊆ t'.reads := fun h₁ hs =>
        List.Subset.trans (List.Subset.trans hs (List.subset_append_left ..)) (ih h₁)
      simp only [kvprintf] at h
      split_ifs at h
      · cases h
        exact List.Subset.refl _
      · cases args with
        | nil => cases h
        | cons str args =>
            obtain ⟨len, -, h⟩ := Option.bind_eq_some_iff.mp h
            exact hmore h (List.subset_append_left ..)
      · cases args with
        | nil => cases h
        | cons addr args => exact hmore h (List.subset_append_left ..)
      · exact hmore h (List.subset_append_left ..)
      · exact hmore h (List.Subset.refl _)

end Steps

/-- The rounds that take `kvprintf` through a format, to its null byte or over it. -/
structure Scan (m : Memory) (fmt : Nat) (fs : List UInt8) (args : List Nat) (rounds fuel : Nat) (reads : List Nat)
    (writes : List (List UInt8)) (rest : List Nat) : Prop where
  inside (a : Nat) : a ∈ reads → a ≤ fmt + fs.length
  expansion : Expansion m fs args writes.flatten
  runs (t : Trace) (n : Nat) : fuel ≤ n → kvprintf m t fmt args (n + rounds) =
    kvprintf m ⟨t.reads ++ reads, t.writes ++ writes⟩ (fmt + fs.length + if dangling fs then 1 else 0) rest n

section Scans

variable {rounds : Nat} {reads rest args' : List Nat} {writes : List (List UInt8)}

theorem Scan.after (first : List UInt8) (rd : List Nat) (wr : List (List UInt8)) (need : Nat)
    (h : Scan m (fmt + first.length) fs args' rounds fuel reads writes rest)
    (hrd : ∀ a ∈ rd, a ≤ fmt + first.length) (he : Expansion m (first ++ fs) args (wr.flatten ++ writes.flatten))
    (hd : dangling (first ++ fs) = dangling fs) (hstep : ∀ t n, need ≤ n → kvprintf m t fmt args (n + 1) =
      kvprintf m ⟨t.reads ++ rd, t.writes ++ wr⟩ (fmt + first.length) args' n) :
    Scan m fmt (first ++ fs) args (rounds + 1) (max fuel need) (rd ++ reads) (wr ++ writes) rest where
  inside a ha := by
    rw [List.length_append, ← Nat.add_assoc]
    rcases List.mem_append.mp ha with ha | ha
    · exact Nat.le_add_right_of_le (hrd a ha)
    · exact h.inside a ha
  expansion := by rwa [List.flatten_append]
  runs t n hn := by
    rw [← Nat.add_assoc, hstep t _ (Nat.le_add_right_of_le (Nat.le_trans (Nat.le_max_right ..) hn)),
      h.runs _ n (Nat.le_trans (Nat.le_max_left ..) hn), hd, List.length_append, ← Nat.add_assoc, List.append_assoc,
      List.append_assoc]

theorem scan_nil (m : Memory) (fmt : Nat) (args : List Nat) : Scan m fmt [] args 0 0 [] [] args where
  inside a ha := absurd ha List.not_mem_nil
  expansion := .nil args
  runs t n _ := by
    rw [List.append_nil, List.append_nil]
    rfl

theorem scan_last (hfmt : TextAt m fmt [0x25]) (args : List Nat) : Scan m fmt [0x25] args 1 0 [fmt, fmt + 1] [] args where
  inside a ha := by
    rw [List.length_singleton]
    simp only [List.mem_cons, List.not_mem_nil, or_false] at ha
    omega
  expansion := .last args
  runs t n _ := by
    rw [List.append_nil, kvprintf_other hfmt.2.1 hfmt.2.2 (by decide) (by decide)]
    rfl

theorem exists_scan (h : Expansion m fs args out) (hfmt : TextAt m fmt fs) :
    ∃ rounds fuel reads writes rest, Scan m fmt fs args rounds fuel reads writes rest := by
  have htwo : ∀ fmt, ∀ a ∈ [fmt, fmt + 1], a ≤ fmt + 2 := by
    intro fmt a ha
    simp only [List.mem_cons, List.not_mem_nil, or_false] at ha
    omega
  induction h generalizing fmt with
  | nil args => exact ⟨_, _, _, _, _, scan_nil m fmt args⟩
  | last args => exact ⟨_, _, _, _, _, scan_last hfmt args⟩
  | char c hc _ ih =>
      obtain ⟨h0, hb, hfmt⟩ := hfmt
      obtain ⟨_, _, _, _, _, hs⟩ := ih hfmt
      exact ⟨_, _, _, _, _, hs.after [c] [fmt] [[c]] 0 (by simp)
        (.char c hc hs.expansion) (dangling_char hc _) fun t n _ => kvprintf_char h0 hc hb t _ n⟩
  | string hstr _ ih =>
      obtain ⟨-, hb, -, hd, hfmt⟩ := hfmt
      obtain ⟨_, _, _, _, _, hs⟩ := ih hfmt
      exact ⟨_, _, _, _, _, hs.after [0x25, 0x73] [fmt, fmt + 1] [_] _ (htwo fmt)
        (by rw [List.flatten_singleton]; exact .string hstr hs.expansion) rfl
        fun t n hn => kvprintf_string hstr hb hd t _ hn⟩
  | @pointer addr digits fs args out ha _ _ _ _ ih =>
      obtain ⟨-, hb, -, hd, hfmt⟩ := hfmt
      obtain ⟨_, _, _, _, _, hs⟩ := ih hfmt
      have he := Expansion.pointer ha (pointerDigits_length addr) (pointerDigits_upper addr)
        (decodeHex_pointerDigits ha) hs.expansion
      exact ⟨_, _, _, _, _, hs.after [0x25, 0x70] [fmt, fmt + 1] [pointerDigits addr] 0 (htwo fmt)
        (by rwa [List.flatten_singleton]) rfl fun t n _ => kvprintf_pointer hb hd t addr _ n⟩
  | other c hns hnp _ ih =>
      obtain ⟨-, hb, -, hd, hfmt⟩ := hfmt
      obtain ⟨_, _, _, _, _, hs⟩ := ih hfmt
      exact ⟨_, _, _, _, _, hs.after [0x25, c] [fmt, fmt + 1] [] 0 (htwo fmt)
        (.other c hns hnp hs.expansion) rfl
        fun t n _ => by rw [List.append_nil]; exact kvprintf_other hb hd hns hnp t _ n⟩

end Scans

/-- The call returns, having read no byte behind the null byte of the format, and
what it has written is the expansion of the format. -/
def Correct (m : Memory) (fmt : Nat) (fs : List UInt8) (args : List Nat) : Prop :=
  ∃ t, Converges (kvprintf m ⟨[], []⟩ fmt args) t ∧ (∀ a ∈ t.reads, a ≤ fmt + fs.length) ∧
    Expansion m fs args t.writes.flatten

theorem correct_of_not_dangling (hfmt : TextAt m fmt fs) (hargs : Matching m fs args) (hd : dangling fs = false) :
    Correct m fmt fs args := by
  obtain ⟨out, hout⟩ := hargs
  obtain ⟨rounds, fuel, reads, writes, rest, hs⟩ := exists_scan hout hfmt
  refine ⟨⟨reads ++ [fmt + fs.length], writes⟩, ⟨fuel + 1 + rounds, fun n hn => ?_⟩, ?_, hs.expansion⟩
  · obtain ⟨n, rfl⟩ := Nat.exists_eq_add_of_le' hn
    rw [show n + (fuel + 1 + rounds) = n + fuel + 1 + rounds by omega, hs.runs _ _ (by omega), hd]
    exact kvprintf_end hfmt.ending _ _ _
  · intro a ha
    rcases List.mem_append.mp ha with ha | ha
    · exact hs.inside a ha
    · rw [List.mem_singleton.mp ha]

theorem kvprintf_correct_iff (m : Memory) (fmt : Nat) (fs : List UInt8) (args : List Nat) (hfmt : TextAt m fmt fs)
    (hargs : Matching m fs args) : Correct m fmt fs args ↔ dangling fs = false := by
  refine ⟨?_, correct_of_not_dangling hfmt hargs⟩
  rintro ⟨t, ⟨n, hn⟩, hreads, -⟩
  by_contra hd
  rw [Bool.not_eq_false] at hd
  obtain ⟨out, hout⟩ := hargs
  obtain ⟨rounds, fuel, reads, writes, rest, hs⟩ := exists_scan hout hfmt
  have hrun := hn (max n fuel + rounds) (Nat.le_add_right_of_le (Nat.le_max_left ..))
  rw [hs.runs _ _ (Nat.le_max_right ..), hd, if_pos rfl] at hrun
  have hover := hreads _ (kvprintf_reads hrun (List.mem_append_right _ List.mem_cons_self))
  omega

def textMemory (a : Nat) (s : List UInt8) : Memory := ⟨fun x => (s[x - a]?).getD 0⟩

theorem kvprintf_correct_iff_pointer :
    Correct (textMemory 0x1000 [0x61, 0x25, 0x70]) 0x1000 [0x61, 0x25, 0x70] [0x80200000] := by
  refine (kvprintf_correct_iff _ _ _ _ (by simp [TextAt, textMemory]) ?_).mpr rfl
  exact ⟨_, .char 0x61 (by decide) (.pointer (by decide) (pointerDigits_length _) (pointerDigits_upper _)
    (decodeHex_pointerDigits (by decide)) (.nil []))⟩

/-- The format is a lone `%`, and what lies behind its null byte is printed. -/
theorem kvprintf_over_null : TextAt (textMemory 0x1000 [0x25, 0, 0x41]) 0x1000 [0x25] ∧
    Converges (kvprintf (textMemory 0x1000 [0x25, 0, 0x41]) ⟨[], []⟩ 0x1000 [])
      ⟨[0x1000, 0x1001, 0x1002, 0x1003], [[0x41]]⟩ := by
  refine ⟨by simp [TextAt, textMemory], 3, fun fuel hfuel => ?_⟩
  obtain ⟨n, rfl⟩ := Nat.exists_eq_add_of_le' hfuel
  rw [kvprintf_other (c := 0) rfl rfl (by decide) (by decide),
    kvprintf_char (c := 0x41) (by decide) (by decide) rfl, kvprintf_end rfl]
  rfl

end Karg.FormatStrings
