import MemoryPool.Lib.Progress
import MemoryPool.Linearize

/-!
# MemoryPool.LockFreeProgress

`LockFreePolicy` is lock-free. A compare-exchange fails only because some other thread's has
succeeded since the load, and each successful one sets every other thread back by two instructions
at most, however they interleave. So the instructions of a run are paid for by its calls, and the
calls in progress are completed within a bounded number of instructions of whichever threads are
scheduled.

Spurious failures are not the threads' doing; the bound is for exchanges that fail only if the
comparison does (`Strong`). It does not need the tags to tell anything apart.
-/

namespace MemoryPool

namespace LockFree

/-- What a compare-exchange is about to compare `head_` with. -/
def Pc.comparand : Pc → Option TaggedHead
  | .popCas e _ | .pushCas _ e => some e
  | _ => none

/-- A compare-exchange fails only if the comparison does. -/
def Strong {τ : Type*} (m : Machine τ) : Event τ → Prop
  | .instr t .load => ∀ e ∈ (m.threads t).pc.comparand, m.pool.pool.head ≠ e
  | _ => True

instance {τ : Type*} (m : Machine τ) (e : Event τ) : Decidable (Strong m e) :=
  match e with
  | .instr t .load =>
    inferInstanceAs (Decidable (∀ e ∈ (m.threads t).pc.comparand, m.pool.pool.head ≠ e))
  | .instr _ .quiet | .instr _ (.cas _) | .instr _ (.ret _) => .isTrue trivial
  | .call .. | .write .. => .isTrue trivial

/-- The instructions left for an undisturbed thread, and two for each of `n` others that a
successful exchange makes fail. -/
def Pc.rank (n : Nat) : Pc → Nat
  | .idle => 0
  | .popRet _ => 1
  | .allocStamp _ => 2
  | .allocPoison _ => 3
  | .allocGuard _ => 4
  | .popCas _ _ => 2 * n + 5
  | .popTest _ => 2 * n + 6
  | .popLoad => 2 * n + 7
  | .pushCas _ _ => 2 * n + 1
  | .pushWrite _ _ => 2 * n + 2
  | .pushLoad _ => 2 * n + 3
  | .freeStamp _ _ => 2 * n + 4
  | .freePoison _ _ => 2 * n + 5
  | .freeGuard _ => 2 * n + 6

/-- A thread whose `expected` is out of date goes round its loop once more. -/
def again (head : TaggedHead) : Option TaggedHead → Nat
  | none => 0
  | some e => if head = e then 0 else 2

theorem again_none (head : TaggedHead) : again head none = 0 := rfl

theorem again_current (head : TaggedHead) : again head (some head) = 0 := if_pos rfl

theorem again_stale {head e : TaggedHead} (h : head ≠ e) : again head (some e) = 2 := if_neg h

theorem again_le (head : TaggedHead) (expected : Option TaggedHead) : again head expected ≤ 2 := by
  unfold again
  split
  · omega
  · split <;> omega

def Pc.left (n : Nat) (head : TaggedHead) (pc : Pc) : Nat := pc.rank n + again head pc.expected

theorem Pc.left_le (n : Nat) (head : TaggedHead) (pc : Pc) : pc.left n head ≤ 2 * n + 8 := by
  have h := again_le head pc.expected
  unfold Pc.left
  cases pc <;> simp only [Pc.rank, Pc.expected, again_none] at h ⊢ <;> omega

theorem Pc.left_idle (n : Nat) (head : TaggedHead) : Pc.idle.left n head = 0 := rfl

/-- How far a successful exchange sets the other threads back. -/
def Label.setback : Label → Nat
  | .cas _ => 2
  | _ => 0

section Instr

variable {B : Build} {spurious : Bool} {s s' : State} {pc pc' : Pc} {label : Label}

theorem instr_head (h : instr B spurious s pc = some (label, s', pc')) :
    s'.pool.head = s.pool.head ∨ ∃ op, label = .cas op := by
  cases pc <;> simp only [instr] at h <;> (repeat' split at h) <;> cases h <;>
    first | exact Or.inl rfl | exact Or.inr ⟨_, rfl⟩

/-- An instruction is paid for by the thread that executes it, and so is the setback of the
others. -/
theorem instr_left (n : Nat) (h : instr B spurious s pc = some (label, s', pc'))
    (hstrong : label = .load → ∀ e ∈ pc.comparand, s.pool.head ≠ e) :
    pc'.left n s'.pool.head + 1 + label.setback * n ≤ pc.left n s.pool.head := by
  unfold Pc.left
  cases pc with
  | idle => cases h
  | popTest expected =>
    simp only [instr] at h
    split at h <;> cases h <;> simp only [Pc.rank, Pc.expected, again_none, Label.setback] <;> omega
  | popCas expected next =>
    simp only [instr] at h
    split at h
    · -- the exchange fails: `expected` was out of date, and is not any more
      cases h
      simp only [Pc.rank, Pc.expected, again_current, again_stale (hstrong rfl expected rfl),
        Label.setback]
      omega
    · cases h
      cases B.hardening <;>
        simp only [Pc.rank, Pc.expected, again_none, Label.setback, if_true, Bool.false_eq_true,
          if_false] <;> omega
  | freeStamp block doubleFree =>
    simp only [instr, Option.some.injEq, Prod.mk.injEq] at h
    obtain ⟨rfl, rfl, rfl⟩ := h
    cases doubleFree <;>
      simp only [Pc.rank, Pc.expected, again_none, Label.setback, if_true, Bool.false_eq_true,
        if_false] <;> omega
  | pushWrite block expected =>
    simp only [instr, Option.some.injEq, Prod.mk.injEq] at h
    obtain ⟨rfl, rfl, rfl⟩ := h
    simp only [Pc.rank, Pc.expected, Label.setback, State.storeNext]
    omega
  | pushCas block expected =>
    simp only [instr] at h
    split at h
    · cases h
      simp only [Pc.rank, Pc.expected, again_current, again_stale (hstrong rfl expected rfl),
        Label.setback]
      omega
    · cases h
      simp only [Pc.rank, Pc.expected, again_none, Label.setback]
      omega
  | _ =>
    simp only [instr, Option.some.injEq, Prod.mk.injEq] at h
    obtain ⟨rfl, rfl, rfl⟩ := h
    simp only [Pc.rank, Pc.expected, again_none, again_current, Label.setback]
    omega

theorem instr_enabled (hpc : pc ≠ .idle) : ∃ label s' pc',
    instr B false s pc = some (label, s', pc') ∧
      (label = .load → ∀ e ∈ pc.comparand, s.pool.head ≠ e) := by
  cases pc with
  | idle => exact absurd rfl hpc
  | popTest expected =>
    by_cases h0 : expected.ptr = 0
    · exact ⟨_, _, _, if_pos h0, by simp⟩
    · exact ⟨_, _, _, if_neg h0, by simp⟩
  | popCas expected next =>
    by_cases hh : s.pool.head = expected
    · exact ⟨_, _, _, if_neg (by simp [hh]), by simp⟩
    · refine ⟨_, _, _, if_pos (Or.inr hh), ?_⟩
      rintro - e ⟨⟩
      exact hh
  | pushCas block expected =>
    by_cases hh : s.pool.head = expected
    · exact ⟨_, _, _, if_neg (by simp [hh]), by simp⟩
    · refine ⟨_, _, _, if_pos (Or.inr hh), ?_⟩
      rintro - e ⟨⟩
      exact hh
  | _ => exact ⟨_, _, _, rfl, by simp [Pc.comparand]⟩

end Instr

section System

variable {τ : Type*}

def Event.role : Event τ → Lts.Role τ
  | .call t _ => .call t
  | .instr t _ => .own t
  | .write _ _ _ => .other

def Event.isCall (e : Event τ) : Bool := e.role.isCall

def Event.isInstr (e : Event τ) : Bool := e.role.isOwn

variable [Fintype τ]

def Machine.left (m : Machine τ) (t : τ) : Nat :=
  (m.threads t).pc.left (Fintype.card τ - 1) m.pool.pool.head

theorem charged [DecidableEq τ] (B : Build) :
    Lts.Charged ((lts B τ).guard Strong) (fun _ => True) Event.role
    Machine.left (2 * Fintype.card τ + 5) := by
  refine ⟨fun _ _ _ _ _ => trivial, ?_, ?_, ?_⟩
  · rintro m e m' t - ⟨-, hs⟩ hr
    have hpos : 0 < Fintype.card τ := Fintype.card_pos_iff.mpr ⟨t⟩
    cases hs with
    | @pop t' hidle =>
      obtain rfl : t' = t := by simpa [Event.role] using hr
      refine ⟨?_, fun u hu => by simp [Machine.left, Machine.move, hu]⟩
      simp only [Machine.left, Machine.move, Function.update_self, hidle, Pc.left, Pc.rank,
        Pc.expected, again_none]
      omega
    | @push t' block hidle hheld =>
      obtain rfl : t' = t := by simpa [Event.role] using hr
      refine ⟨?_, fun u hu => by simp [Machine.left, Machine.move, hu]⟩
      simp only [Machine.left, Machine.move, Function.update_self, hidle]
      cases B.hardening <;>
        simp only [Pc.left, Pc.rank, Pc.expected, again_none, if_true, Bool.false_eq_true,
          if_false] <;> omega
    | instr _ => cases hr
    | write _ _ _ => cases hr
  · rintro m e m' t - ⟨hG, hs⟩ hr
    cases hs with
    | pop _ => cases hr
    | push _ _ => cases hr
    | write _ _ _ => cases hr
    | @instr t' spurious label s pc h =>
      obtain rfl : t' = t := by simpa [Event.role] using hr
      have hleft := instr_left (Fintype.card τ - 1) h (by rintro rfl; exact hG)
      refine ⟨label.setback, ?_, fun u hu => ?_⟩
      · have hpc : ((m.threads t').after m.cas pc label).pc = pc := by cases label <;> rfl
        simpa only [Machine.left, Machine.move, Function.update_self, hpc] using hleft
      · simp only [Machine.left, Machine.move, Function.update_of_ne hu]
        rcases instr_head h with hh | ⟨op, rfl⟩
        · rw [hh]
          exact Nat.le_add_right _ _
        · have := again_le s.pool.head (m.threads u).pc.expected
          simp only [Pc.left, Label.setback]
          omega
  · rintro m e m' - ⟨-, hs⟩ hr u
    cases hs with
    | pop _ => cases hr
    | push _ _ => cases hr
    | instr _ => cases hr
    | write _ _ _ => exact le_refl _

/-- The threads inside a call. -/
def Machine.busy (m : Machine τ) : Finset τ :=
  Finset.univ.filter fun t => (m.threads t).pc ≠ .idle

theorem Machine.left_sum_le (m : Machine τ) :
    ∑ t, m.left t ≤ (2 * Fintype.card τ + 6) * m.busy.card := by
  refine Lts.sum_le_busy (fun t ht => ?_) fun t => ?_
  · have hidle : (m.threads t).pc = .idle := by simpa [Machine.busy] using ht
    rw [Machine.left, hidle, Pc.left_idle]
  · have hpos : 0 < Fintype.card τ := Fintype.card_pos_iff.mpr ⟨t⟩
    have := (m.threads t).pc.left_le (Fintype.card τ - 1) m.pool.pool.head
    unfold Machine.left
    omega

end System

/-! ## A schedule with a failed exchange -/

theorem strong_run : ∃ m, ((lts (Build.x64 false .lockfree) Bool).guard Strong).Run
    (pairMachine false) raceEvents m ∧ (m.threads false).pc = .popTest ⟨0, 4⟩ := by
  have h : (Lts.script (Lts.only Strong (exec (Build.x64 false .lockfree))) (pairMachine false)
      raceSchedule).map (fun r => (r.1, (r.2.threads false).pc)) =
      some (raceEvents, .popTest ⟨0, 4⟩) := by decide +kernel
  exact Lts.script_run (Lts.only_step fun m a e m' h => (exec_step m a e m' h).2)
    (fun m : Machine Bool => (m.threads false).pc) h

end LockFree

section Theorems

variable {τ : Type*} [Fintype τ] [DecidableEq τ] {B : Build} {s : State}
  {es : List (LockFree.Event τ)} {m : LockFree.Machine τ}

/-- Any number of threads on a `LOCKFREE` pool, any interleaving, exchanges that fail only if the
comparison does. A run executes at most `2 T + 5` instructions for each of its calls, `T` the number
of threads. A thread inside a call never waits. And whatever state was reached, the calls in
progress are completed within `2 T + 6` instructions for each of them, whichever threads execute
these. -/
theorem lockfree_progress
    (hrun : ((LockFree.lts B τ).guard LockFree.Strong).Run (.start s) es m) :
    es.countP LockFree.Event.isInstr ≤
      (2 * Fintype.card τ + 5) * es.countP LockFree.Event.isCall ∧
    (∀ t, (m.threads t).pc ≠ .idle → ∃ label m',
      ((LockFree.lts B τ).guard LockFree.Strong).step m (.instr t label) m') ∧
    ∀ es' m', ((LockFree.lts B τ).guard LockFree.Strong).Run m es' m' →
      (∀ e ∈ es', e.isCall = false) →
      es'.countP LockFree.Event.isInstr ≤ (2 * Fintype.card τ + 6) * m.busy.card := by
  refine ⟨?_, fun t ht => ?_, fun es' m' hrun' hno => ?_⟩
  · have h := (LockFree.charged B).run hrun trivial
    have hzero : ∑ t, (LockFree.Machine.start s : LockFree.Machine τ).left t = 0 := by
      refine Finset.sum_eq_zero fun t _ => ?_
      exact LockFree.Pc.left_idle _ _
    rw [hzero] at h
    exact (Nat.le_add_right _ _).trans h
  · obtain ⟨label, s', pc', h, hstrong⟩ := LockFree.instr_enabled (B := B) (s := m.pool) ht
    refine ⟨label, _, ?_, .instr h⟩
    cases label with
    | load => exact hstrong rfl
    | _ => trivial
  · exact ((LockFree.charged B).run_quiet hrun' trivial hno).trans m.left_sum_le

theorem lockfree_progress_x64 : ∃ m : LockFree.Machine Bool,
    (m.threads false).pc = .popTest ⟨0, 4⟩ ∧
      LockFree.raceEvents.countP LockFree.Event.isInstr ≤
        9 * LockFree.raceEvents.countP LockFree.Event.isCall ∧
      (∃ label m', ((LockFree.lts (Build.x64 false .lockfree) Bool).guard LockFree.Strong).step m
        (.instr false label) m') ∧
      ∀ es' m', ((LockFree.lts (Build.x64 false .lockfree) Bool).guard LockFree.Strong).Run m
        es' m' → (∀ e ∈ es', e.isCall = false) →
          es'.countP LockFree.Event.isInstr ≤ 10 * m.busy.card := by
  obtain ⟨m, hrun, hpc⟩ := LockFree.strong_run
  obtain ⟨h1, h2, h3⟩ := lockfree_progress hrun
  exact ⟨m, hpc, h1, h2 false (by simp [hpc]), h3⟩

end Theorems

end MemoryPool
