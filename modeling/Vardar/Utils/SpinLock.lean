import Vardar.Lib.Run
import Vardar.Utils.Printf

/-!
# The spin lock

`wait` reads the lock until it is free and then sets it, in two accesses. `PrintK` does the same
with `IN_USE` around the characters it writes. Processors take their steps in any order, and each
access of memory is one step.

Two processors can hold the lock if one reads it as free after another has read it as free and
before that one has set it. In all other runs the processors hold it one after the other, and the
messages that they write while they do are not mixed.

## Main definitions

* `Vardar.SpinLock.Place`, `Vardar.SpinLock.State`, `Vardar.SpinLock.step`.
* `Vardar.SpinLock.NoRace`: the steps that do not read the lock as free between the two accesses of
  another processor.
* `Vardar.SpinLock.Exclusive`, `Vardar.SpinLock.Serial`.

## Main results

* `Vardar.SpinLock.exclusive_iff`.
* `Vardar.SpinLock.printK_serial`.
-/

namespace Vardar.SpinLock

variable {P α : Type*}

/-! ### Processors at the lock -/

/-- Where a processor is: outside, after the loop of `wait` with the characters it is going to
write, or before `release` with those it has written and those it has not. -/
inductive Place (α : Type*)
  | outside
  | tested (rest : List α)
  | holds (done rest : List α)

namespace Place

/-- The message of a processor that is not outside. -/
def message : Place α → List (List α)
  | outside => []
  | tested rest => [rest]
  | holds done rest => [done ++ rest]

/-- What a processor has written of its message. -/
def written : Place α → List α
  | holds done _ => done
  | _ => []

end Place

/-- The lock, the places of the processors, the messages they have not begun, and what has been
written. -/
structure State (P α : Type*) where
  lock : Bool
  place : P → Place α
  todo : P → List (List α)
  out : List α

/-- No processor has begun. -/
def boot (todo : P → List (List α)) : State P α := ⟨false, fun _ => .outside, todo, []⟩

/-- At most one processor is past the loop, and the lock is set while one holds it. -/
structure Alone (s : State P α) : Prop where
  unique : ∀ p q, s.place p ≠ .outside → s.place q ≠ .outside → p = q
  lock : s.lock = true ↔ ∃ p done rest, s.place p = .holds done rest

/-- Two processors hold the lock. -/
def Meet (s : State P α) : Prop :=
  ∃ p q, p ≠ q ∧ (∃ done rest, s.place p = .holds done rest) ∧
    ∃ done rest, s.place q = .holds done rest

variable {s : State P α} {p q : P}

theorem alone_boot (todo : P → List (List α)) : Alone (boot todo) :=
  ⟨fun _ _ hp => absurd rfl hp, by simp [boot]⟩

namespace Alone

/-- If one is past the loop, the others are outside. -/
theorem others (h : Alone s) (hp : s.place p ≠ .outside) (hq : q ≠ p) : s.place q = .outside := by
  by_contra hne
  exact hq (h.unique q p hne hp)

/-- Before a processor passes its test, all are outside. -/
theorem outside (h : Alone s) (hlock : s.lock = false) (hrace : ∀ q m, s.place q ≠ .tested m)
    (q : P) : s.place q = .outside := by
  cases hplace : s.place q with
  | outside => rfl
  | tested m => exact absurd hplace (hrace q m)
  | holds done rest =>
    have hset := h.lock.mpr ⟨q, done, rest, hplace⟩
    exact absurd (hset.symm.trans hlock) (by decide)

theorem not_meet (h : Alone s) : ¬ Meet s := by
  rintro ⟨p, q, hne, ⟨done, rest, hp⟩, ⟨done', rest', hq⟩⟩
  exact hne (h.unique p q (by simp [hp]) (by simp [hq]))

end Alone

/-! ### Steps -/

variable [DecidableEq P]

namespace State

variable (s : State P α) (p : P)

/-- Go to a place. -/
def goto (a : Place α) : State P α := { s with place := Function.update s.place p a }

/-- A round of the loop of `wait`. -/
def test (m : List α) (ms : List (List α)) : State P α :=
  if s.lock then s else { s.goto p (.tested m) with todo := Function.update s.todo p ms }

/-- The store of `wait`. -/
def set (m : List α) : State P α := { s.goto p (.holds [] m) with lock := true }

/-- Write a character. -/
def write (done : List α) (a : α) (rest : List α) : State P α :=
  { s.goto p (.holds (done ++ [a]) rest) with out := s.out ++ [a] }

/-- `release`. -/
def release : State P α := { s.goto p .outside with lock := false }

end State

/-- The next access of a processor. -/
def step (s : State P α) (p : P) : State P α :=
  match s.place p with
  | .outside =>
    match s.todo p with
    | [] => s
    | m :: ms => s.test p m ms
  | .tested m => s.set p m
  | .holds done (a :: rest) => s.write p done a rest
  | .holds _ [] => s.release p

/-- What a step does. -/
theorem step_cases (s : State P α) (p : P) :
    step s p = s ∨
      (∃ m ms, s.place p = .outside ∧ s.todo p = m :: ms ∧ s.lock = false ∧
        step s p = { s.goto p (.tested m) with todo := Function.update s.todo p ms }) ∨
      (∃ m, s.place p = .tested m ∧ step s p = s.set p m) ∨
      (∃ done a rest, s.place p = .holds done (a :: rest) ∧ step s p = s.write p done a rest) ∨
      ∃ done, s.place p = .holds done [] ∧ step s p = s.release p := by
  unfold step
  split
  case h_1 hplace =>
    split
    case h_1 => exact .inl rfl
    case h_2 m ms htodo =>
      rw [State.test]
      by_cases hlock : s.lock = true
      · rw [if_pos hlock]
        exact .inl rfl
      · rw [if_neg hlock]
        exact .inr (.inl ⟨m, ms, hplace, htodo, by simpa using hlock, rfl⟩)
  case h_2 m hplace => exact .inr (.inr (.inl ⟨m, hplace, rfl⟩))
  case h_3 done a rest hplace => exact .inr (.inr (.inr (.inl ⟨done, a, rest, hplace, rfl⟩)))
  case h_4 done hplace => exact .inr (.inr (.inr (.inr ⟨done, hplace, rfl⟩)))

/-- The others stay where they are. -/
theorem place_step_of_ne (h : q ≠ p) : (step s p).place q = s.place q := by
  rcases step_cases s p with heq | ⟨m, ms, -, -, -, heq⟩ | ⟨m, -, heq⟩ | ⟨done, a, rest, -, heq⟩ |
    ⟨done, -, heq⟩ <;> rw [heq]
  all_goals exact Function.update_of_ne h _ _

/-- A step does not read the lock as free between the two accesses of another processor. -/
def NoRace (s : State P α) (p : P) : Prop :=
  s.place p = .outside → s.todo p ≠ [] → s.lock = false → ∀ q m, s.place q ≠ .tested m

namespace Alone

/-- One processor moves while the others are outside. -/
theorem goto {s' : State P α} {a : Place α} (hothers : ∀ q ≠ p, s.place q = .outside)
    (hplace : s'.place = Function.update s.place p a)
    (hlock : s'.lock = true ↔ ∃ done rest, a = .holds done rest) : Alone s' := by
  have hne (q : P) (hq : q ≠ p) : s'.place q = .outside := by
    rw [hplace, Function.update_of_ne hq, hothers q hq]
  have hself : s'.place p = a := by rw [hplace, Function.update_self]
  refine ⟨fun q r hq hr => ?_, ?_⟩
  · by_cases hqp : q = p
    · by_cases hrp : r = p
      · rw [hqp, hrp]
      · exact absurd (hne r hrp) hr
    · exact absurd (hne q hqp) hq
  · rw [hlock]
    refine ⟨fun ⟨done, rest, ha⟩ => ⟨p, done, rest, hself.trans ha⟩, ?_⟩
    rintro ⟨q, done, rest, hq⟩
    by_cases hqp : q = p
    · subst hqp
      exact ⟨done, rest, hself.symm.trans hq⟩
    · exact absurd ((hne q hqp).symm.trans hq) (by simp)

theorem step (h : Alone s) (hrace : NoRace s p) : Alone (SpinLock.step s p) := by
  rcases step_cases s p with heq | ⟨m, ms, hplace, htodo, hlock, heq⟩ | ⟨m, hplace, heq⟩ |
    ⟨done, a, rest, hplace, heq⟩ | ⟨done, hplace, heq⟩
  · rwa [heq]
  · rw [heq]
    have hall := h.outside hlock (hrace hplace (by simp [htodo]) hlock)
    exact goto (fun q _ => hall q) rfl (by simp [State.goto, hlock])
  · rw [heq]
    exact goto (fun q hq => h.others (by simp [hplace]) hq) rfl (by simp [State.set])
  · rw [heq]
    have hlock := h.lock.mpr ⟨p, done, a :: rest, hplace⟩
    exact goto (fun q hq => h.others (by simp [hplace]) hq) rfl
      (by simp [State.write, State.goto, hlock])
  · rw [heq]
    exact goto (fun q hq => h.others (by simp [hplace]) hq) rfl (by simp [State.release])

end Alone

/-! ### Exclusion -/

/-- Whatever the processors between their two accesses of `wait` do, no two hold the lock. -/
def Exclusive (s : State P α) : Prop :=
  ∀ ps : List P, (∀ p ∈ ps, ∃ m, s.place p = .tested m) → ¬ Meet (ps.foldl step s)

/-- The steps of one processor while the others are outside. -/
theorem Alone.run_one (h : Alone s) (hothers : ∀ q ≠ p, s.place q = .outside) (n : ℕ) :
    Alone ((List.replicate n p).foldl SpinLock.step s) := by
  induction n generalizing s with
  | zero => exact h
  | succ n ih =>
    have hrace : NoRace s p := by
      intro hplace _ _ q m hq
      by_cases hqp : q = p
      · rw [hqp, hplace] at hq
        exact absurd hq (by simp)
      · rw [hothers q hqp] at hq
        exact absurd hq (by simp)
    exact ih (h.step hrace) fun q hq => (place_step_of_ne hq).trans (hothers q hq)

theorem Alone.exclusive (h : Alone s) : Exclusive s := by
  intro ps hps
  cases ps with
  | nil => exact h.not_meet
  | cons p ps =>
    have hne {q : P} (hq : ∃ m, s.place q = .tested m) : s.place q ≠ .outside := by
      obtain ⟨m, hm⟩ := hq
      simp [hm]
    have hp := hne (hps p List.mem_cons_self)
    have hall : p :: ps = List.replicate (p :: ps).length p :=
      List.eq_replicate_of_mem fun q hq => h.unique q p (hne (hps q hq)) hp
    rw [hall]
    exact (h.run_one (fun q hq => h.others hp hq) _).not_meet

/-- After a race, two processors can meet. -/
theorem not_exclusive_step (hrace : ¬ NoRace s p) : ¬ Exclusive (step s p) := by
  simp only [NoRace, Classical.not_imp, not_forall, not_not] at hrace
  obtain ⟨hplace, htodo, hlock, q, m, hq⟩ := hrace
  obtain ⟨m', ms, hcons⟩ := List.exists_cons_of_ne_nil htodo
  have hqp : q ≠ p := by
    rintro rfl
    simp [hplace] at hq
  have hp' : (step s p).place p = .tested m' := by
    simp [step, hplace, hcons, State.test, hlock, State.goto]
  have hq' : (step s p).place q = .tested m := (place_step_of_ne hqp).trans hq
  set s₁ := step s p
  -- both store, and each of them holds the lock
  have hset {s : State P α} {r : P} {m : List α} (h : s.place r = .tested m) :
      (step s r).place r = .holds [] m := by simp [step, h, State.set, State.goto]
  have hp₂ : (step (step s₁ p) q).place p = .holds [] m' :=
    (place_step_of_ne hqp.symm).trans (hset hp')
  have hq₂ : (step (step s₁ p) q).place q = .holds [] m :=
    hset ((place_step_of_ne hqp).trans hq')
  intro hexcl
  refine hexcl [p, q] ?_ ⟨p, q, hqp.symm, ⟨_, _, hp₂⟩, _, _, hq₂⟩
  simp [hp', hq']

/-- **The spin lock excludes exactly without races.** No two processors can hold the lock in any
state of a run exactly if no step of the run reads the lock as free between the two accesses of
another processor. -/
theorem exclusive_iff (todo : P → List (List α)) (ps : List P) :
    (∀ n, Exclusive ((ps.take n).foldl step (boot todo))) ↔
      Run.Along step NoRace (boot todo) ps :=
  Run.forall_take_iff_along (I := Alone) (fun _ h => h.exclusive) (fun _ _ h hrace => h.step hrace)
    (fun _ _ _ hrace => not_exclusive_step hrace) (alone_boot todo) ps

/-! ### The messages -/

/-- The messages of a processor in a history. -/
def own (hist : List (P × List α)) (p : P) : List (List α) :=
  (hist.filter fun x => x.1 = p).map Prod.snd

theorem own_append (hist : List (P × List α)) (p : P) (m : List α) (q : P) :
    own (hist ++ [(p, m)]) q = own hist q ++ if p = q then [m] else [] := by
  rw [own, own, List.filter_append, List.map_append]
  by_cases hpq : p = q
  · simp [hpq]
  · simp [hpq]

/-- What has been written is a history of whole messages, each processor's in its order, and a part
of the message of the processor that is writing. -/
structure SerialWith (todo : P → List (List α)) (s : State P α) (hist : List (P × List α)) :
    Prop where
  order : ∀ p, own hist p ++ (s.place p).message ++ s.todo p = todo p
  writing : ∀ p, s.place p ≠ .outside →
    s.out = (hist.map Prod.snd).flatten ++ (s.place p).written
  idle : (∀ p, s.place p = .outside) → s.out = (hist.map Prod.snd).flatten

/-- There is such a history. -/
def Serial (todo : P → List (List α)) (s : State P α) : Prop := ∃ hist, SerialWith todo s hist

variable {todo : P → List (List α)} {hist : List (P × List α)}

theorem serial_boot (todo : P → List (List α)) : Serial todo (boot todo) :=
  ⟨[], fun _ => rfl, fun _ hp => absurd rfl hp, fun _ => rfl⟩

/-- A processor moves that was or will be past the loop, so the others are outside. -/
theorem SerialWith.goto {s' : State P α} {a : Place α} {hist' : List (P × List α)}
    (h : SerialWith todo s hist) (hothers : ∀ q ≠ p, s.place q = .outside)
    (hplace : s'.place = Function.update s.place p a) (htodo : ∀ q ≠ p, s'.todo q = s.todo q)
    (hown : ∀ q ≠ p, own hist' q = own hist q)
    (horder : own hist' p ++ a.message ++ s'.todo p =
      own hist p ++ (s.place p).message ++ s.todo p)
    (hout : s'.out = (hist'.map Prod.snd).flatten ++ a.written) : SerialWith todo s' hist' := by
  have hself : s'.place p = a := by rw [hplace, Function.update_self]
  have hne (q : P) (hq : q ≠ p) : s'.place q = .outside := by
    rw [hplace, Function.update_of_ne hq, hothers q hq]
  refine ⟨fun q => ?_, fun q hq => ?_, fun hall => ?_⟩
  · by_cases hqp : q = p
    · rw [hqp, hself, horder]
      exact h.order p
    · rw [hne q hqp, htodo q hqp, hown q hqp, ← hothers q hqp]
      exact h.order q
  · by_cases hqp : q = p
    · rw [hqp, hself]
      exact hout
    · exact absurd (hne q hqp) hq
  · rw [hout, ← hself, hall p]
    exact List.append_nil _

theorem Serial.step (h : Serial todo s) (ha : Alone s) (hrace : NoRace s p) :
    Serial todo (step s p) := by
  obtain ⟨hist, hs⟩ := h
  have hothers (hp : s.place p ≠ .outside) (q : P) (hq : q ≠ p) := ha.others hp hq
  rcases step_cases s p with heq | ⟨m, ms, hplace, htodo, hlock, heq⟩ | ⟨m, hplace, heq⟩ |
    ⟨done, a, rest, hplace, heq⟩ | ⟨done, hplace, heq⟩
  · exact ⟨hist, by rwa [heq]⟩
  · have hall := ha.outside hlock (hrace hplace (by simp [htodo]) hlock)
    refine ⟨hist, hs.goto (fun q _ => hall q) (by rw [heq]; rfl) (fun q hq => ?_)
      (fun _ _ => rfl) ?_ ?_⟩
    · rw [heq]
      exact Function.update_of_ne hq _ _
    · rw [heq, hplace, htodo]
      simp [Place.message]
    · rw [heq]
      exact (hs.idle hall).trans (List.append_nil _).symm
  · refine ⟨hist, hs.goto (hothers (by simp [hplace])) (by rw [heq]; rfl)
      (fun _ _ => by rw [heq]; rfl) (fun _ _ => rfl) ?_ ?_⟩
    · rw [heq, hplace]
      rfl
    · have hout := hs.writing p (by simp [hplace])
      rw [hplace] at hout
      rw [heq]
      exact hout
  · refine ⟨hist, hs.goto (hothers (by simp [hplace])) (by rw [heq]; rfl)
      (fun _ _ => by rw [heq]; rfl) (fun _ _ => rfl) ?_ ?_⟩
    · rw [heq, hplace]
      simp [Place.message, State.write, State.goto]
    · have hout := hs.writing p (by simp [hplace])
      rw [hplace] at hout
      rw [heq]
      simp [State.write, Place.written, hout]
  -- the message is over and joins the history
  · refine ⟨hist ++ [(p, done)], hs.goto (hothers (by simp [hplace])) (by rw [heq]; rfl)
      (fun _ _ => by rw [heq]; rfl) (fun q hq => ?_) ?_ ?_⟩
    · rw [own_append, if_neg hq.symm, List.append_nil]
    · rw [heq, hplace, own_append]
      simp [Place.message, State.release, State.goto]
    · have hout := hs.writing p (by simp [hplace])
      rw [hplace] at hout
      rw [heq]
      simp [State.release, State.goto, Place.written, hout]

/-- Without races, messages are written one after the other. -/
theorem serial_of_run {ps : List P} (hrun : Run.Along step NoRace (boot todo) ps) :
    Serial todo (ps.foldl step (boot todo)) :=
  (hrun.invariant (I := fun s => Alone s ∧ Serial todo s)
    (fun _ _ h hrace => ⟨h.1.step hrace, h.2.step h.1 hrace⟩)
    ⟨alone_boot todo, serial_boot todo⟩).2

/-! ### `PrintK` -/

open Printf (Call Printer printK)

/-- A call of `PrintK` that returns. -/
structure Printed where
  call : Call
  fuel : ℕ
  printer : Printer
  returns : printK call false fuel = some printer

/-- The characters that the call sends to `term_write`. -/
def Printed.text (c : Printed) : List (BitVec 8) := c.printer.out

/-- **Calls of `PrintK` are written one after the other.** If the processors make calls that return,
then in every run without races what has been written is the text of whole calls, each processor's
in its order, and a part of the text of the call that is writing. -/
theorem printK_serial (calls : P → List Printed) {ps : List P}
    (hrun : Run.Along step NoRace (boot fun p => (calls p).map Printed.text) ps) :
    Serial (fun p => (calls p).map Printed.text)
      (ps.foldl step (boot fun p => (calls p).map Printed.text)) :=
  serial_of_run hrun

/-- A call that writes a letter. -/
def printLetter (b : Bool) : Printed where
  call := ⟨fun i => if i = 0 then if b then 0x61 else 0x62 else 0, 0, fun _ => 0⟩
  fuel := 9
  printer := ⟨false, 1, 0, [if b then 0x61 else 0x62], [1, 1, 0, 0]⟩
  returns := by cases b <;> rfl

/-- Two processors write a letter each, and the second one waits for the first. -/
theorem printK_serial_two :
    Serial (fun p => [printLetter p].map Printed.text)
      ([true, true, false, true, true, false, false].foldl step
        (boot fun p => [printLetter p].map Printed.text)) := by
  refine printK_serial (fun p => [printLetter p]) ?_
  simp [Run.Along, NoRace, step, boot, State.test, State.set, State.write, State.release,
    State.goto, Printed.text, printLetter, Function.update]

end Vardar.SpinLock
