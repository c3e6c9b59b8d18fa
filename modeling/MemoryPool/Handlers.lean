import MemoryPool.Refinement

/-!
# MemoryPool.Handlers

The violation policy of a hardened build: the slot that holds the handler, `report`, which calls
what the slot holds, and the default handler, which prints and aborts.

Everywhere else in this development the handler returns and `World.reports` lists its calls. Here a
process runs a client and its handlers; it ends at the first report that reaches the default
handler (`Process.report`). A handler neither throws nor calls the pool, so that its calls can be
made after the call of the pool that reports, in the same order.

* `Ends`: the default handler is called last or not at all.
* `call_expected`: the handler calls of one call of the pool.
* `fail_stop`: which handler gets which report, and when the process ends.
-/

namespace MemoryPool

/-- What `handler_slot` holds. -/
inductive Handler (η : Type*) where
  | default
  | custom (h : η)
  deriving DecidableEq

/-- A null handler stands for the default one. -/
def Handler.ofPtr {η : Type*} : Option η → Handler η
  | none => .default
  | some h => .custom h

/-- A client and the handler it has installed; `calls` lists the calls of handlers. -/
structure Process (η : Type*) where
  client : Client
  slot : Handler η
  calls : List (Handler η × Report)
  aborted : Bool

namespace Process

variable {η : Type*}

def start (c : Client) : Process η := ⟨c, .default, [], false⟩

/-- `set_hardening_violation_handler`: the handler that was installed, and the exchange. -/
def setHardeningViolationHandler (p : Process η) (handler : Option η) : Handler η × Process η :=
  (p.slot, { p with slot := .ofPtr handler })

/-- `report`. A handler of the program may install another one (`sets`); then it returns. -/
def report (sets : η → Report → Option (Option η)) (p : Process η) (r : Report) : Process η :=
  if p.aborted then p
  else
    match p.slot with
    | .default => { p with calls := p.calls ++ [(.default, r)], aborted := true }
    | .custom h =>
      { p with
        calls := p.calls ++ [(.custom h, r)]
        slot := (sets h r).elim (.custom h) .ofPtr }

inductive Event (η : Type*) where
  | call (e : Client.Event)
  | install (handler : Option η) (previous : Handler η)
  deriving DecidableEq

/-- The process is alive and makes a call of the pool, each report of which goes to the handler then
installed, or it installs a handler. -/
inductive Step (B : Build) (sets : η → Report → Option (Option η)) :
    Process η → Event η → Process η → Prop where
  | call {p : Process η} {e : Client.Event} {c : Client} : p.aborted = false →
      Client.Step B p.client e c →
      Step B sets p (.call e)
        ((c.pool.reports.drop p.client.pool.reports.length).foldl (report sets)
          { p with client := c })
  | install {p : Process η} {handler : Option η} : p.aborted = false →
      Step B sets p (.install handler (p.setHardeningViolationHandler handler).1)
        (p.setHardeningViolationHandler handler).2

def lts (B : Build) (sets : η → Report → Option (Option η)) : Lts (Process η) (Event η) :=
  ⟨Step B sets⟩

def OwnWrites (p : Process η) : Event η → Prop
  | .call e => Client.OwnWrites p.client e
  | .install _ _ => True

inductive Action (η : Type*) where
  | call (call : Client.Call)
  | install (handler : Option η)

def exec (B : Build) (sets : η → Report → Option (Option η)) (p : Process η) :
    Action η → Option (Event η × Process η)
  | .call call =>
    match Client.exec B p.client call with
    | none => none
    | some (e, c) =>
      if p.aborted = false ∧ Client.OwnWrites p.client e then
        some (.call e, (c.pool.reports.drop p.client.pool.reports.length).foldl (report sets)
          { p with client := c })
      else none
  | .install handler =>
    if p.aborted = false then
      some (.install handler (p.setHardeningViolationHandler handler).1,
        (p.setHardeningViolationHandler handler).2)
    else none

def Event.client : Event η → Option Client.Event
  | .call e => some e
  | .install _ _ => none

theorem exec_step {B : Build} {sets : η → Report → Option (Option η)} (p : Process η)
    (a : Action η) (e : Event η) (p' : Process η) (h : exec B sets p a = some (e, p')) :
    ((lts B sets).guard OwnWrites).step p e p' := by
  cases a with
  | call call =>
    simp only [exec] at h
    split at h
    · cases h
    · rename_i heq
      split at h
      · rename_i hok
        cases h
        exact ⟨hok.2, .call hok.1 (Client.exec_step heq)⟩
      · cases h
  | install handler =>
    simp only [exec] at h
    split at h
    · rename_i hok
      cases h
      exact ⟨trivial, .install hok⟩
    · cases h

section Calls

variable {B : Build} {sets : η → Report → Option (Option η)} {p p' : Process η} {r : Report}

theorem report_client (p : Process η) (r : Report) : (p.report sets r).client = p.client := by
  unfold report
  split
  · rfl
  · split <;> rfl

/-- What one report does to a process that is alive. -/
theorem report_alive (sets : η → Report → Option (Option η)) (r : Report)
    (h : p.aborted = false) :
    (p.report sets r).calls = p.calls ++ [(p.slot, r)] ∧
      ((p.report sets r).aborted = true ↔ p.slot = .default) := by
  unfold report
  rw [if_neg (by simp [h])]
  cases hs : p.slot with
  | default => simp
  | custom h' => simpa using h

/-- No handler but the last one called is the default one; if that is, the process has ended. -/
structure Ends (p : Process η) : Prop where
  aborted : p.aborted = true ↔ ∃ r, (Handler.default, r) ∈ p.calls
  last : ∀ x ∈ p.calls.dropLast, x.1 ≠ .default

theorem Ends.report (E : Ends p) (h : p.aborted = false) : Ends (p.report sets r) := by
  obtain ⟨hcalls, hab⟩ := report_alive sets r h
  have hno : ∀ x ∈ p.calls, x.1 ≠ .default := by
    rintro ⟨handler, r'⟩ hx rfl
    have := E.aborted.mpr ⟨r', hx⟩
    rw [h] at this
    cases this
  refine ⟨hab.trans ?_, ?_⟩
  · rw [hcalls]
    constructor
    · intro hs
      exact ⟨r, by simp [hs]⟩
    · rintro ⟨r', hr'⟩
      rcases List.mem_append.mp hr' with hr' | hr'
      · exact absurd rfl (hno _ hr')
      · exact (congrArg Prod.fst (List.mem_singleton.mp hr')).symm
  · rw [hcalls, List.dropLast_concat]
    exact hno

/-- A call that reports what is expected of it. -/
theorem call_expected (sets : η → Report → Option (Option η)) {c : Client} {e : Client.Event}
    (h : p.aborted = false) (E : Ends p)
    (hrep : c.pool.reports = p.client.pool.reports ++ Client.expectedReports B p.client e)
    (hp' : p' = (c.pool.reports.drop p.client.pool.reports.length).foldl (Process.report sets)
      { p with client := c }) :
    p'.client = c ∧ Ends p' ∧
      p'.calls = p.calls ++ (Client.expectedReports B p.client e).map (Prod.mk p.slot) ∧
      (p'.aborted = true ↔ p.slot = .default ∧ Client.expectedReports B p.client e ≠ []) := by
  rw [hrep, List.drop_left] at hp'
  have E' : Ends { p with client := c } := ⟨E.aborted, E.last⟩
  have hone : Client.expectedReports B p.client e = [] ∨
      ∃ r, Client.expectedReports B p.client e = [r] := by
    cases e with
    | free env block =>
      simp only [Client.expectedReports]
      split
      · exact Or.inr ⟨_, rfl⟩
      · exact Or.inl rfl
    | _ => exact Or.inl rfl
  rcases hone with h0 | ⟨r, h1⟩
  · rw [h0] at hp' ⊢
    subst hp'
    exact ⟨rfl, E', by simp, by simp [h]⟩
  · rw [h1] at hp' ⊢
    subst hp'
    obtain ⟨hcalls, hab⟩ := report_alive (p := { p with client := c }) sets r h
    exact ⟨report_client _ r, E'.report h, hcalls, by simpa using hab⟩

end Calls

/-! ## A handler that is called once -/

/-- The handler of the program puts the default one back. -/
def once (_ : Unit) (_ : Report) : Option (Option Unit) := some none

def freedThrice : List (Event Unit) :=
  [.install (some ()) .default, .call (.alloc firstEnv 0x1000 none),
    .call (.free firstEnv 0x1000), .call (.free firstEnv 0x1000), .call (.free firstEnv 0x1000)]

theorem freedThrice_run : ∃ P : Process Unit, ((lts (Build.x64 true .none) once).guard
    OwnWrites).Run (.start (firstClient (Build.x64 true .none))) freedThrice P ∧
      (P.aborted, P.calls) = (true, [(.custom (), ⟨.doubleFree, 0x1000⟩),
        (.default, ⟨.doubleFree, 0x1000⟩)]) := by
  have h : (Lts.script (exec (Build.x64 true .none) once)
      (.start (firstClient (Build.x64 true .none)))
      [.install (some ()), .call (.alloc firstEnv), .call (.free firstEnv 0x1000),
        .call (.free firstEnv 0x1000), .call (.free firstEnv 0x1000)]).map
      (fun r => (r.1, (r.2.aborted, r.2.calls))) =
      some (freedThrice, (true, [(.custom (), ⟨.doubleFree, 0x1000⟩),
        (.default, ⟨.doubleFree, 0x1000⟩)])) := by decide +kernel
  exact Lts.script_run exec_step (fun P : Process Unit => (P.aborted, P.calls)) h

end Process

section Theorems

open Process

variable {η : Type*} {B : Build} {sets : η → Report → Option (Option η)} {env : Env} {w w' : World}
  {call : CreateCall} {p : PoolStruct} {es : List (Event η)} {P : Process η}

/-- Hardened build, any policy, any handlers that return and call nothing of the pool, also such
that install others; the client frees any pointer at any time. What the pool does is a run of the
client alone. Each report is made to one handler, the one installed then, in order; none is made but
for the free of a slot that is not vended. The process ends at the first one that finds the default
handler in the slot, and at no other. -/
theorem fail_stop (hh : B.hardening = true) (hr : call.InRange B)
    (hcreate : call.run B env w = (some p, w'))
    (hrun : ((Process.lts B sets).guard OwnWrites).Run (.start ⟨⟨w', p⟩, []⟩) es P) :
    ((Client.lts B).guard Client.OwnWrites).Run ⟨⟨w', p⟩, []⟩ (es.filterMap Event.client) P.client ∧
      P.client.pool.reports = w.reports ++ P.calls.map Prod.snd ∧
      (P.aborted = true ↔ ∃ r, (Handler.default, r) ∈ P.calls) ∧
      (∀ x ∈ P.calls.dropLast, x.1 ≠ .default) ∧
      (P.aborted = false → ∀ e c, Client.OwnWrites P.client e → Client.Step B P.client e c →
        ∃ P', Process.Step B sets P (.call e) P' ∧ P'.client = c ∧
          P'.calls = P.calls ++ (Client.expectedReports B P.client e).map (Prod.mk P.slot) ∧
          (P'.aborted = true ↔
            P.slot = .default ∧ Client.expectedReports B P.client e ≠ [])) := by
  have C := CreateCall.created hr hcreate
  suffices ((Client.lts B).guard Client.OwnWrites).Run ⟨⟨w', p⟩, []⟩ (es.filterMap Event.client)
      P.client ∧ P.client.pool.reports = w.reports ++ P.calls.map Prod.snd ∧ Ends P ∧
      ∃ free, PoolInv B P.client.pool w.heap.ledger.live free P.client.held by
    obtain ⟨hclient, hrep, E, free, I⟩ := this
    refine ⟨hclient, hrep, E.aborted, E.last, fun h e c hw hs => ?_⟩
    obtain ⟨-, -, -, -, -, hexp, -⟩ := Client.refines I hs ⟨hw, Or.inl hh⟩
    obtain ⟨h1, -, h2, h3⟩ := call_expected sets h E hexp rfl
    exact ⟨_, .call h hs, h1, h2, h3⟩
  induction hrun with
  | nil =>
    refine ⟨.nil, ?_, ⟨by simp [start], by simp [start]⟩, _, C.inv⟩
    simpa [start] using C.reports
  | @snoc P P' es e _ hs ih =>
    obtain ⟨hclient, hrep, E, free, I⟩ := ih
    obtain ⟨hw, hs⟩ := hs
    rw [List.filterMap_append]
    cases hs with
    | @call e c halive hstep =>
      obtain ⟨-, free', I', -, -, hexp, -⟩ := Client.refines I hstep ⟨hw, Or.inl hh⟩
      obtain ⟨h1, E', h2, -⟩ := call_expected sets halive E hexp rfl
      refine ⟨?_, ?_, E', free', ?_⟩
      · rw [h1]
        exact hclient.snoc ⟨hw, hstep⟩
      · rw [h1, h2, hexp, hrep]
        simp
      · rw [h1]
        exact I'
    | install halive =>
      refine ⟨?_, hrep, ⟨E.aborted, E.last⟩, free, I⟩
      exact (List.append_nil (es.filterMap Event.client)).symm ▸ hclient

theorem fail_stop_x64 : ∃ P : Process Unit,
    P.client.pool.reports = [⟨.doubleFree, 0x1000⟩, ⟨.doubleFree, 0x1000⟩] ∧ P.aborted = true ∧
      ((Client.lts (Build.x64 true .none)).guard Client.OwnWrites).Run
        (firstClient (Build.x64 true .none)) [.alloc firstEnv 0x1000 none, .free firstEnv 0x1000,
          .free firstEnv 0x1000, .free firstEnv 0x1000] P.client := by
  obtain ⟨P, hrun, hP⟩ := freedThrice_run
  obtain ⟨hab, hcalls⟩ := Prod.mk.inj hP
  obtain ⟨h1, h2, -⟩ := fail_stop rfl (by decide) (firstCall_run true .none (by decide)) hrun
  rw [hcalls] at h2
  exact ⟨P, h2, hab, h1⟩

end Theorems

end MemoryPool
