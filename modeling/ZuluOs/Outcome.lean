/-
Outcomes of Rust code, and machine arithmetic under both overflow profiles.

A Rust function returns a value, returns an error, or does not return at all:
it panics, the CPU raises an exception, or it parks the core for good.  The
monad `Outcome` keeps these apart; its `bind` is the `?` operator, and a stop
passes through `?` untouched.

* `bind_eq_ok` peels a successful computation apart, step by step;
* `forEach_eq_ok` characterises `for x in xs { f(x)?; }`;
* `foldlM_ok_induction` is the invariant rule for a loop with an accumulator;
* `foldlM_pointwise` is the rule for a loop that visits each key of a state once.

`Overflow` is the build profile: arithmetic on 64-bit words is done on `ℕ`
(and on `ℤ` for `i64`), and a result out of range either panics or wraps.
-/
import Mathlib

/-- Why control does not come back. -/
inductive Stop where
  /-- A Rust panic. -/
  | panic
  /-- A CPU exception raised by kernel code. -/
  | fault
  /-- The core was parked in a `hlt` loop on purpose. -/
  | halt
deriving DecidableEq, Repr

/-- What running a piece of Rust code gives. -/
inductive Outcome (ε α : Type) where
  | ok (a : α)
  | err (e : ε)
  | stop (s : Stop)
deriving DecidableEq, Repr

namespace Outcome

variable {ε α β γ : Type}

/-- Sequencing, as the `?` operator does it. -/
protected def bind (x : Outcome ε α) (f : α → Outcome ε β) : Outcome ε β :=
  match x with
  | ok a => f a
  | err e => err e
  | stop s => stop s

instance : Monad (Outcome ε) where
  pure := ok
  bind := Outcome.bind

@[simp] theorem pure_eq (a : α) : (pure a : Outcome ε α) = ok a := rfl

@[simp] theorem ok_bind (a : α) (f : α → Outcome ε β) : (ok a >>= f) = f a := rfl

@[simp] theorem err_bind (e : ε) (f : α → Outcome ε β) :
    ((err e : Outcome ε α) >>= f) = err e := rfl

@[simp] theorem stop_bind (s : Stop) (f : α → Outcome ε β) :
    ((stop s : Outcome ε α) >>= f) = stop s := rfl

theorem bind_assoc (x : Outcome ε α) (f : α → Outcome ε β) (g : β → Outcome ε γ) :
    (x >>= f >>= g) = x >>= fun a => f a >>= g := by
  cases x <;> rfl

instance : LawfulMonad (Outcome ε) :=
  LawfulMonad.mk' _ (fun x => by cases x <;> rfl) (fun _ _ => rfl) bind_assoc

/-- Inversion of `?`: a successful sequence is two successful steps. -/
theorem bind_eq_ok {x : Outcome ε α} {f : α → Outcome ε β} {b : β} :
    (x >>= f) = ok b ↔ ∃ a, x = ok a ∧ f a = ok b := by
  cases x with
  | ok a => simp
  | err e => simp
  | stop s => simp

/-- An error comes from one of the two steps. -/
theorem bind_eq_err {x : Outcome ε α} {f : α → Outcome ε β} {e : ε} :
    (x >>= f) = err e ↔ x = err e ∨ ∃ a, x = ok a ∧ f a = err e := by
  cases x with
  | ok a => simp
  | err e => simp
  | stop s => simp

/-- `Option::ok_or`. -/
def okOr (e : ε) : Option α → Outcome ε α
  | some a => ok a
  | none => err e

/-- `Option::unwrap`. -/
def unwrap : Option α → Outcome ε α
  | some a => ok a
  | none => stop .panic

/-- `Result::unwrap`. -/
def unwrapResult {δ : Type} : Outcome δ α → Outcome ε α
  | ok a => ok a
  | err _ => stop .panic
  | stop s => stop s

@[simp] theorem okOr_eq_ok {e : ε} {x : Option α} {a : α} :
    okOr e x = ok a ↔ x = some a := by
  cases x <;> simp [okOr]

@[simp] theorem unwrap_eq_ok {x : Option α} {a : α} :
    (unwrap x : Outcome ε α) = ok a ↔ x = some a := by
  cases x <;> simp [unwrap]

@[simp] theorem unwrapResult_eq_ok {δ : Type} {x : Outcome δ α} {a : α} :
    (unwrapResult x : Outcome ε α) = ok a ↔ x = ok a := by
  cases x <;> simp [unwrapResult]

/-! ### Loops -/

/-- `for x in xs { f(x)?; }` -/
def forEach (f : α → Outcome ε Unit) : List α → Outcome ε Unit
  | [] => ok ()
  | x :: xs => f x >>= fun _ => forEach f xs

theorem forEach_eq_ok {f : α → Outcome ε Unit} {xs : List α} :
    forEach f xs = ok () ↔ ∀ x ∈ xs, f x = ok () := by
  induction xs with
  | nil => simp [forEach]
  | cons x xs ih =>
    rw [forEach, bind_eq_ok, List.forall_mem_cons, ← ih]
    exact ⟨fun ⟨_, hx, hxs⟩ => ⟨hx, hxs⟩, fun ⟨hx, hxs⟩ => ⟨(), hx, hxs⟩⟩

theorem forEach_eq_err {f : α → Outcome ε Unit} {xs : List α} {e : ε}
    (h : forEach f xs = err e) : ∃ x ∈ xs, f x = err e := by
  induction xs with
  | nil => cases h
  | cons x xs ih =>
    rw [forEach, bind_eq_err] at h
    rcases h with hx | ⟨_, -, hxs⟩
    · exact ⟨x, List.mem_cons_self, hx⟩
    · obtain ⟨y, hy, hfy⟩ := ih hxs
      exact ⟨y, List.mem_cons_of_mem x hy, hfy⟩

/-- A loop whose body never stops does not stop either. -/
theorem forEach_ne_stop {f : α → Outcome ε Unit} {xs : List α}
    (h : ∀ x ∈ xs, ∀ s, f x ≠ stop s) : ∀ s, forEach f xs ≠ stop s := by
  induction xs with
  | nil =>
    intro s
    simp [forEach]
  | cons x xs ih =>
    intro s
    rw [forEach]
    cases hx : f x with
    | ok u => exact ih (fun y hy => h y (List.mem_cons_of_mem x hy)) s
    | err e => simp
    | stop s' => exact absurd hx (h x List.mem_cons_self s')

/-- The invariant rule for a loop that updates an accumulator and returns. -/
theorem foldlM_ok_induction {f : β → α → Outcome ε β} (I : β → Prop) {xs : List α} {b b' : β}
    (hstep : ∀ x ∈ xs, ∀ c c', I c → f c x = ok c' → I c')
    (hI : I b) (h : xs.foldlM f b = ok b') : I b' := by
  induction xs generalizing b with
  | nil =>
    rw [List.foldlM_nil, pure_eq, ok.injEq] at h
    exact h ▸ hI
  | cons x xs ih =>
    rw [List.foldlM_cons, bind_eq_ok] at h
    obtain ⟨c, hc, hrest⟩ := h
    exact ih (fun y hy => hstep y (List.mem_cons_of_mem x hy))
      (hstep x List.mem_cons_self b c hI hc) hrest

/-- A loop whose body always succeeds runs to its end. -/
theorem foldlM_total {f : β → α → Outcome ε β} {xs : List α}
    (h : ∀ x ∈ xs, ∀ c, ∃ c', f c x = ok c') (b : β) : ∃ b', xs.foldlM f b = ok b' := by
  induction xs generalizing b with
  | nil => exact ⟨b, rfl⟩
  | cons x xs ih =>
    obtain ⟨c, hc⟩ := h x List.mem_cons_self b
    rw [List.foldlM_cons, hc, ok_bind]
    exact ih (fun y hy => h y (List.mem_cons_of_mem x hy)) c

/-- The invariant rule for a loop that runs to its end; the invariant may speak
of the turns that are left. -/
theorem foldlM_exists {f : β → α → Outcome ε β} (I : List α → β → Prop)
    (hstep : ∀ x xs c, I (x :: xs) c → ∃ c', f c x = ok c' ∧ I xs c') {xs : List α} {b : β}
    (hI : I xs b) : ∃ b', xs.foldlM f b = ok b' ∧ I [] b' := by
  induction xs generalizing b with
  | nil => exact ⟨b, rfl, hI⟩
  | cons x xs ih =>
    obtain ⟨c, hc, hI'⟩ := hstep x xs b hI
    rw [List.foldlM_cons, hc, ok_bind]
    exact ih hI'

/-- The invariant rule for a loop that counts up and runs to its end; the
invariant may speak of the number of turns made. -/
theorem foldlM_range' {f : β → ℕ → Outcome ε β} (I : ℕ → β → Prop) {start n : ℕ} {b : β}
    (hstep : ∀ i < n, ∀ c, I i c → ∃ c', f c (start + i) = ok c' ∧ I (i + 1) c') (hI : I 0 b) :
    ∃ b', (List.range' start n).foldlM f b = ok b' ∧ I n b' := by
  induction n with
  | zero => exact ⟨b, rfl, hI⟩
  | succ n ih =>
    obtain ⟨c, hc, hIc⟩ := ih fun i hi => hstep i (Nat.lt_succ_of_lt hi)
    obtain ⟨c', hc', hIc'⟩ := hstep n n.lt_succ_self c hIc
    refine ⟨c', ?_, hIc'⟩
    rw [List.range'_1_concat, List.foldlM_append, hc, ok_bind, List.foldlM_cons, hc']
    rfl

/-- A loop whose body never fails with an error does not either. -/
theorem foldlM_ne_err {f : β → α → Outcome ε β} {xs : List α}
    (h : ∀ x ∈ xs, ∀ c e, f c x ≠ err e) (b : β) (e : ε) : xs.foldlM f b ≠ err e := by
  induction xs generalizing b with
  | nil => simp
  | cons x xs ih =>
    rw [List.foldlM_cons]
    cases hx : f b x with
    | ok c => exact ih (fun y hy => h y (List.mem_cons_of_mem x hy)) c
    | err e' => exact absurd hx (h x List.mem_cons_self b e')
    | stop s => simp

/-- A loop that runs to its end has run its body on every element. -/
theorem foldlM_ok_mem {f : β → α → Outcome ε β} {xs : List α} {b b' : β}
    (h : xs.foldlM f b = ok b') {x : α} (hx : x ∈ xs) : ∃ c c', f c x = ok c' := by
  induction xs generalizing b with
  | nil => cases hx
  | cons y ys ih =>
    rw [List.foldlM_cons, bind_eq_ok] at h
    obtain ⟨c, hc, hrest⟩ := h
    rcases List.mem_cons.mp hx with rfl | hx
    · exact ⟨b, c, hc⟩
    · exact ih hrest hx

/-- Loops with the same turns. -/
theorem foldlM_congr {f g : β → α → Outcome ε β} {xs : List α}
    (h : ∀ x ∈ xs, ∀ c, f c x = g c x) (b : β) : xs.foldlM f b = xs.foldlM g b := by
  induction xs generalizing b with
  | nil => rfl
  | cons x xs ih =>
    rw [List.foldlM_cons, List.foldlM_cons, h x List.mem_cons_self]
    exact congrArg _ (funext fun c => ih (fun y hy => h y (List.mem_cons_of_mem x hy)) c)

/-- A loop over distinct keys, each turn of which touches the state at its own
key only: elsewhere nothing changes, and at each key its own turn is seen. -/
theorem foldlM_pointwise {κ ν : Type} {f : β → α → Outcome ε β} (view : β → κ → ν) (key : α → κ)
    (R : α → ν → ν → Prop) {xs : List α} {b b' : β}
    (hstep : ∀ x ∈ xs, ∀ c c', f c x = ok c' →
      (∀ k, k ≠ key x → view c' k = view c k) ∧ R x (view c (key x)) (view c' (key x)))
    (hkeys : xs.Pairwise fun x y => key x ≠ key y) (h : xs.foldlM f b = ok b') :
    (∀ k, (∀ x ∈ xs, k ≠ key x) → view b' k = view b k) ∧
      ∀ x ∈ xs, R x (view b (key x)) (view b' (key x)) := by
  induction xs generalizing b with
  | nil =>
    rw [List.foldlM_nil, pure_eq, ok.injEq] at h
    subst h
    exact ⟨fun _ _ => rfl, nofun⟩
  | cons x xs ih =>
    rw [List.foldlM_cons, bind_eq_ok] at h
    obtain ⟨c, hc, hrest⟩ := h
    obtain ⟨hother, hR⟩ := hstep x List.mem_cons_self b c hc
    obtain ⟨hfirst, hkeys⟩ := List.pairwise_cons.mp hkeys
    obtain ⟨hothers, hRs⟩ := ih (fun y hy => hstep y (List.mem_cons_of_mem x hy)) hkeys hrest
    refine ⟨fun k hk => ?_, fun y hy => ?_⟩
    · rw [hothers k fun y hy => hk y (List.mem_cons_of_mem x hy), hother k (hk x List.mem_cons_self)]
    · rcases List.mem_cons.mp hy with rfl | hy
      · rw [hothers (key y) hfirst]
        exact hR
      · rw [← hother (key y) (hfirst y hy).symm]
        exact hRs y hy

/-- `iter.map(f).collect()` -/
def mapEach (f : α → Outcome ε β) : List α → Outcome ε (List β)
  | [] => ok []
  | x :: xs => do
    let y ← f x
    let ys ← mapEach f xs
    ok (y :: ys)

theorem mapEach_eq_ok {f : α → Outcome ε β} {xs : List α} {ys : List β} :
    mapEach f xs = ok ys ↔ List.Forall₂ (fun x y => f x = ok y) xs ys := by
  induction xs generalizing ys with
  | nil => simp [mapEach, eq_comm]
  | cons x xs ih =>
    simp only [mapEach, bind_eq_ok, ok.injEq, List.forall₂_cons_left_iff, ih]
    constructor
    · rintro ⟨y, hy, ys', hys, rfl⟩
      exact ⟨y, ys', hy, hys, rfl⟩
    · rintro ⟨y, ys', hy, hys, rfl⟩
      exact ⟨y, hy, ys', hys, rfl⟩

theorem mapEach_total {f : α → Outcome ε β} {xs : List α} (h : ∀ x ∈ xs, ∃ y, f x = ok y) :
    ∃ ys, mapEach f xs = ok ys := by
  induction xs with
  | nil => exact ⟨[], rfl⟩
  | cons x xs ih =>
    obtain ⟨y, hy⟩ := h x List.mem_cons_self
    obtain ⟨ys, hys⟩ := ih fun x' hx' => h x' (List.mem_cons_of_mem x hx')
    exact ⟨y :: ys, by rw [mapEach, hy, ok_bind, hys, ok_bind]⟩

/-- `iter.map(f).nth(n)`: the elements before the `n`-th are made, too. -/
def nth (f : α → Outcome ε β) : List α → ℕ → Outcome ε (Option β)
  | [], _ => ok none
  | x :: _, 0 => do ok (some (← f x))
  | x :: xs, n + 1 => do
    let _ ← f x
    nth f xs n

/-- Where nothing goes wrong, `nth` is the `n`-th element. -/
theorem nth_eq_ok {f : α → Outcome ε β} {g : α → β} {xs : List α}
    (h : ∀ x ∈ xs, f x = ok (g x)) (n : ℕ) : nth f xs n = ok (xs[n]?.map g) := by
  induction xs generalizing n with
  | nil => rfl
  | cons x xs ih =>
    cases n with
    | zero => rw [nth, h x List.mem_cons_self]; rfl
    | succ n =>
      rw [nth, h x List.mem_cons_self, ok_bind, ih fun y hy => h y (List.mem_cons_of_mem x hy),
        List.getElem?_cons_succ]

end Outcome

/-! ### Machine arithmetic -/

/-- What the build does with an arithmetic overflow: `panic` with overflow
checks (the default profile), `wrap` without (the release profile). -/
inductive Overflow where
  | panic
  | wrap
deriving DecidableEq, Repr

namespace Overflow

variable {ε : Type}

/-- The result of an out-of-range operation, `wrapped` being its value modulo
the word size. -/
def overflowed {α : Type} (wrapped : α) : Overflow → Outcome ε α
  | .panic => .stop .panic
  | .wrap => .ok wrapped

/-- `a + b` on `u64`. -/
def addU64 (o : Overflow) (a b : ℕ) : Outcome ε ℕ :=
  if a + b < 2 ^ 64 then .ok (a + b) else o.overflowed ((a + b) % 2 ^ 64)

/-- `a - b` on `u64`. -/
def subU64 (o : Overflow) (a b : ℕ) : Outcome ε ℕ :=
  if b ≤ a then .ok (a - b) else o.overflowed ((a + 2 ^ 64 - b) % 2 ^ 64)

/-- Two's complement: the `i64` that an integer is cast to. -/
def wrapI64 (x : ℤ) : ℤ := (x + 2 ^ 63) % 2 ^ 64 - 2 ^ 63

/-- An `i64` operation with exact result `x`. -/
def ofI64 (o : Overflow) (x : ℤ) : Outcome ε ℤ :=
  if -2 ^ 63 ≤ x ∧ x < 2 ^ 63 then .ok x else o.overflowed (wrapI64 x)

theorem addU64_of_lt (o : Overflow) {a b : ℕ} (h : a + b < 2 ^ 64) :
    (o.addU64 a b : Outcome ε ℕ) = .ok (a + b) := by
  rw [addU64, if_pos h]

theorem subU64_of_le (o : Overflow) {a b : ℕ} (h : b ≤ a) :
    (o.subU64 a b : Outcome ε ℕ) = .ok (a - b) := by
  rw [subU64, if_pos h]

/-- With overflow checks a sum that is returned is the exact one. -/
theorem addU64_panic {a b : ℕ} :
    (Overflow.panic.addU64 a b : Outcome ε ℕ)
      = if a + b < 2 ^ 64 then .ok (a + b) else .stop .panic := rfl

/-- Without them it is the sum modulo the word size. -/
theorem addU64_wrap {a b : ℕ} :
    (Overflow.wrap.addU64 a b : Outcome ε ℕ) = .ok ((a + b) % 2 ^ 64) := by
  rw [addU64]
  split
  · rw [Nat.mod_eq_of_lt ‹_›]
  · rfl

end Overflow

/-- `!a` on `u64`. -/
def notU64 (a : ℕ) : ℕ := 2 ^ 64 - 1 - a

/-- Masking with the complement of `2 ^ k - 1` rounds down to a multiple of
`2 ^ k`. -/
theorem and_notU64_two_pow {x k : ℕ} (hx : x < 2 ^ 64) (hk : k < 64) :
    x &&& notU64 (2 ^ k - 1) = x / 2 ^ k * 2 ^ k := by
  have hpow : 2 ^ k < 2 ^ 64 := Nat.pow_lt_pow_right (by decide) hk
  have hnot : notU64 (2 ^ k - 1) = 2 ^ 64 - (2 ^ k - 1 + 1) := by
    unfold notU64
    omega
  refine Nat.eq_of_testBit_eq fun i => ?_
  rw [Nat.testBit_and, hnot, Nat.testBit_two_pow_sub_succ (by omega), Nat.testBit_two_pow_sub_one,
    Nat.testBit_mul_two_pow, Nat.testBit_div_two_pow]
  by_cases hik : i < k
  · simp [hik]
  · by_cases hi : i < 64
    · simp [hik, hi, Nat.le_of_not_lt hik]
    · have hbit : x.testBit i = false :=
        Nat.testBit_eq_false_of_lt (hx.trans_le (Nat.pow_le_pow_right (by decide) (by omega)))
      simp [hbit, Nat.le_of_not_lt hik]
