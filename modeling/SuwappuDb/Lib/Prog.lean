import Mathlib.Data.List.Basic
import Mathlib.Logic.Relation

/-!
# Programs that call a shared object

A thread is a *program*: it returns, or it makes one atomic call on a shared object and goes on
with the object's answer. `Prog.run` is one program alone; a *pool* of programs runs interleaved,
one call of one thread at a time.

* `Pool.Step` — some thread makes its next call. The pool's behaviours are its `Step` sequences.
* `Pool.run` — the same as a function of the order of the calls: a list of picks, after which
  the threads still unfinished run to the end. `run_steps` and `exists_picks` say that this is
  exactly the behaviours of `Step` that finish every thread.
* `Pool.run_induct` — what every `Step` preserves holds after a `run`. `Pool.run_rule` is the case
  of a fact about the object and one about each thread that the calls of no thread disturb.

A thread's part in a run is summed up by its *history*, the calls it made with their answers
(`Prog.After`). A history determines the thread's result among all programs' results on any
answering function that agrees with it (`Prog.After.eval_eq`).

An object whose calls may fail `Prog.Refines` another if its answers are the same while they last.
Every program that returns on the first then returns the same on both (`Refines.exec`), and what is
known of the points of its calls holds all along the run (`Refines.points`).

Fallible programs need less: how a sequence of `Except` steps came to succeed
(`bind_eq_ok_iff`, `okOr_eq_ok_iff`, `mapError_eq_ok_iff`), and loops of `Option` steps
(`mapM_eq_some_map`, `runAll`).
-/

variable {Op : Type} {Res : Op → Type} {α σ : Type}

/-- A program over calls `Op`, answered in `Res`, that returns an `α`. -/
inductive Prog (Op : Type) (Res : Op → Type) (α : Type) where
  | ret (a : α)
  | call (op : Op) (k : Res op → Prog Op Res α)

namespace Prog

/-- A call with its answer. -/
abbrev Event (Op : Type) (Res : Op → Type) := (op : Op) × Res op

/-- Run a program alone on the object `sem`. -/
def run (sem : (op : Op) → σ → Res op × σ) : Prog Op Res α → σ → α × σ
  | ret a, s => (a, s)
  | call op k, s => (k (sem op s).1).run sem (sem op s).2

/-- The result when every call is answered by `answer`. -/
def eval (answer : (op : Op) → Res op) : Prog Op Res α → α
  | ret a => a
  | call op k => (k (answer op)).eval answer

/-- The calls made when every call is answered by `answer`. -/
def calls (answer : (op : Op) → Res op) : Prog Op Res α → List Op
  | ret _ => []
  | call op k => op :: (k (answer op)).calls answer

/-- `After p h q`: having made the calls of the history `h`, the program `p` has become `q`. -/
inductive After (p : Prog Op Res α) : List (Event Op Res) → Prog Op Res α → Prop
  | start : After p [] p
  | call {h : List (Event Op Res)} {op : Op} {k : Res op → Prog Op Res α} (r : Res op) :
      After p h (.call op k) → After p (h ++ [⟨op, r⟩]) (k r)

/-- The answering function gives the answers of the history. -/
def Agrees (answer : (op : Op) → Res op) (h : List (Event Op Res)) : Prop :=
  ∀ e ∈ h, answer e.1 = e.2

theorem After.eval_eq {p q : Prog Op Res α} {h : List (Event Op Res)} (hp : After p h q)
    {answer : (op : Op) → Res op} (ha : Agrees answer h) :
    p.eval answer = q.eval answer ∧ p.calls answer = h.map Sigma.fst ++ q.calls answer := by
  induction hp with
  | start => simp
  | @call h op k r _ ih =>
      obtain ⟨heval, hcalls⟩ := ih fun e he => ha e (List.mem_append_left _ he)
      have hr : answer op = r := ha ⟨op, r⟩ (List.mem_append_right _ List.mem_cons_self)
      subst hr
      exact ⟨heval, by rw [hcalls]; simp [calls]⟩

/-- The objects that a run passes through, from the one it starts with to the one it leaves. -/
def states (sem : (op : Op) → σ → Res op × σ) : Prog Op Res α → σ → List σ
  | ret _, s => [s]
  | call op k, s => s :: (k (sem op s).1).states sem (sem op s).2

/-- Run a program alone on an object whose calls may fail. -/
def exec (sem : (op : Op) → σ → Option (Res op × σ)) : Prog Op Res α → σ → Option (α × σ)
  | ret a, s => some (a, s)
  | call op k, s => do
      let (r, s') ← sem op s
      (k r).exec sem s'

/-- The points that a run on such an object passes through: those of its calls, up to one that
fails, and the one at its end. -/
def points {π : Type} (sem : (op : Op) → σ → Option (Res op × σ)) (inCall : Op → σ → List π)
    (atEnd : σ → π) : Prog Op Res α → σ → List π
  | ret _, s => [atEnd s]
  | call op k, s => inCall op s ++ match sem op s with
      | none => []
      | some (r, s') => (k r).points sem inCall atEnd s'

/-- `R` relates an object whose calls may fail to one whose calls do not: a call that succeeds gives
the same answer, and the objects stay related. -/
structure Refines {τ : Type} (sem : (op : Op) → σ → Option (Res op × σ))
    (sem' : (op : Op) → τ → Res op × τ) (R : σ → τ → Prop) : Prop where
  step : ∀ {s t op r s'}, R s t → sem op s = some (r, s') →
    r = (sem' op t).1 ∧ R s' (sem' op t).2

namespace Refines

variable {τ : Type} {sem : (op : Op) → σ → Option (Res op × σ)}
  {sem' : (op : Op) → τ → Res op × τ} {R : σ → τ → Prop}

/-- A run that returns gives the same result. -/
theorem exec (h : Refines sem sem' R) {p : Prog Op Res α} {s s' : σ} {t : τ} {a : α}
    (hst : R s t) (hexec : p.exec sem s = some (a, s')) :
    a = (p.run sem' t).1 ∧ R s' (p.run sem' t).2 := by
  induction p generalizing s t with
  | ret b =>
      obtain ⟨rfl, rfl⟩ := Prod.mk.inj (Option.some.inj hexec)
      exact ⟨rfl, hst⟩
  | call op k ih =>
      obtain ⟨⟨r, mid⟩, hcall, hrest⟩ := Option.bind_eq_some_iff.1 hexec
      obtain ⟨rfl, hmid⟩ := h.step hst hcall
      exact ih _ hmid hrest

/-- A run returns if its calls succeed. -/
theorem exec_isSome (h : Refines sem sem' R)
    (hlive : ∀ {s t}, R s t → ∀ op, (sem op s).isSome) (p : Prog Op Res α) {s : σ} {t : τ}
    (hst : R s t) : (p.exec sem s).isSome := by
  induction p generalizing s t with
  | ret b => rfl
  | call op k ih =>
      obtain ⟨⟨r, mid⟩, hcall⟩ := Option.isSome_iff_exists.1 (hlive hst op)
      obtain ⟨-, hmid⟩ := h.step hst hcall
      rw [Prog.exec, hcall]
      exact ih r hmid

/-- What the points of each call say of the objects before it and after it, the points of a run say
of some object that the other run passes through. -/
theorem points (h : Refines sem sem' R) {π : Type} (inCall : Op → σ → List π) (atEnd : σ → π)
    {Q : π → τ → Prop}
    (hcalls : ∀ {s t}, R s t → ∀ op, ∀ x ∈ inCall op s, Q x t ∨ Q x (sem' op t).2)
    (hend : ∀ {s t}, R s t → Q (atEnd s) t) (p : Prog Op Res α) {s : σ} {t : τ} (hst : R s t) :
    ∀ x ∈ p.points sem inCall atEnd s, ∃ y ∈ p.states sem' t, Q x y := by
  induction p generalizing s t with
  | ret a =>
      intro x hx
      rw [List.mem_singleton.1 hx]
      exact ⟨t, List.mem_singleton_self t, hend hst⟩
  | call op k ih =>
      have hhead : ∀ p : Prog Op Res α, ∀ t, t ∈ p.states sem' t := by
        intro p t
        cases p with
        | ret a => exact List.mem_singleton_self t
        | call op k => exact List.mem_cons_self
      intro x hx
      rw [Prog.points] at hx
      rcases List.mem_append.1 hx with hx | hx
      · rcases hcalls hst op x hx with hQ | hQ
        · exact ⟨t, List.mem_cons_self, hQ⟩
        · exact ⟨_, List.mem_cons_of_mem _ (hhead _ _), hQ⟩
      · cases hcall : sem op s with
        | none =>
            rw [hcall] at hx
            cases hx
        | some p =>
            obtain ⟨r, s'⟩ := p
            rw [hcall] at hx
            obtain ⟨hr, hmid⟩ := h.step hst hcall
            obtain ⟨y, hy, hQ⟩ := ih r hmid x hx
            rw [hr] at hy
            exact ⟨y, List.mem_cons_of_mem _ hy, hQ⟩

end Refines

end Prog

/-! ## Pools -/

/-- Threads over one shared object. -/
structure Pool (Op : Type) (Res : Op → Type) (α σ : Type) where
  threads : List (Prog Op Res α)
  shared : σ

namespace Pool

open Prog

variable (sem : (op : Op) → σ → Res op × σ)

/-- Thread `i` makes its next call; a thread that has returned, or that does not exist, does
nothing. -/
def stepAt (i : Nat) (c : Pool Op Res α σ) : Pool Op Res α σ :=
  match c.threads[i]? with
  | some (.call op k) => ⟨c.threads.set i (k (sem op c.shared).1), (sem op c.shared).2⟩
  | _ => c

/-- Run the threads to the end, one after another. -/
def drain : List (Prog Op Res α) → σ → List α × σ
  | [], s => ([], s)
  | p :: ps, s =>
      let r := p.run sem s
      let rest := drain ps r.2
      (r.1 :: rest.1, rest.2)

/-- The picked threads make their calls in the order of the picks, and then whatever is left
runs to the end. -/
def run (picks : List Nat) (c : Pool Op Res α σ) : List α × σ :=
  let c' := picks.foldl (fun c i => stepAt sem i c) c
  drain sem c'.threads c'.shared

/-- One thread makes one call. -/
inductive Step (c : Pool Op Res α σ) : Pool Op Res α σ → Prop
  | mk {i : Nat} {op : Op} {k : Res op → Prog Op Res α} :
      c.threads[i]? = some (.call op k) →
      Step c ⟨c.threads.set i (k (sem op c.shared).1), (sem op c.shared).2⟩

/-- Threads that have returned. -/
def returned (as : List α) : List (Prog Op Res α) := as.map .ret

/-- The pool in which every thread has returned. -/
def done (as : List α) (s : σ) : Pool Op Res α σ := ⟨returned as, s⟩

theorem stepAt_step (i : Nat) (c : Pool Op Res α σ) :
    stepAt sem i c = c ∨ Step sem c (stepAt sem i c) := by
  unfold stepAt
  split
  · next op k h => exact Or.inr (.mk h)
  · exact Or.inl rfl

/-- A thread behind a finished prefix runs to its end by steps. -/
theorem thread_steps (as : List α) (p : Prog Op Res α) (ps : List (Prog Op Res α)) (s : σ) :
    Relation.ReflTransGen (Step sem) ⟨returned as ++ p :: ps, s⟩
      ⟨returned (as ++ [(p.run sem s).1]) ++ ps, (p.run sem s).2⟩ := by
  induction p generalizing s with
  | ret a => simpa [Prog.run, returned] using Relation.ReflTransGen.refl
  | call op k ih =>
      have hstep : Step sem ⟨returned as ++ .call op k :: ps, s⟩
          ⟨(returned as ++ Prog.call op k :: ps).set as.length (k (sem op s).1), (sem op s).2⟩ :=
        .mk (by simp [returned])
      have hset : (returned as ++ Prog.call op k :: ps).set as.length (k (sem op s).1) =
          returned as ++ k (sem op s).1 :: ps := by simp [returned]
      rw [hset] at hstep
      exact Relation.ReflTransGen.head hstep (ih _ _)

theorem drain_steps (as : List α) (ps : List (Prog Op Res α)) (s : σ) :
    Relation.ReflTransGen (Step sem) ⟨returned as ++ ps, s⟩
      (done (as ++ (drain sem ps s).1) (drain sem ps s).2) := by
  induction ps generalizing as s with
  | nil => simpa [drain, done] using Relation.ReflTransGen.refl
  | cons p ps ih =>
      have hrest := ih (as ++ [(p.run sem s).1]) (p.run sem s).2
      rw [List.append_assoc] at hrest
      exact (thread_steps sem as p ps s).trans hrest

/-- Every `run` is a behaviour of the pool that finishes every thread. -/
theorem run_steps (picks : List Nat) (c : Pool Op Res α σ) :
    Relation.ReflTransGen (Step sem) c (done (run sem picks c).1 (run sem picks c).2) := by
  induction picks generalizing c with
  | nil => simpa [run, returned] using drain_steps sem [] c.threads c.shared
  | cons i picks ih =>
      have hrest := ih (stepAt sem i c)
      rcases stepAt_step sem i c with h | h
      · rw [h] at hrest
        simpa [run, h] using hrest
      · exact Relation.ReflTransGen.head h hrest

theorem drain_returned (as : List α) (s : σ) :
    drain sem (returned as : List (Prog Op Res α)) s = (as, s) := by
  induction as with
  | nil => rfl
  | cons a as ih =>
      have hcons : (returned (a :: as) : List (Prog Op Res α)) = .ret a :: returned as := rfl
      simp [hcons, drain, Prog.run, ih]

/-- Every behaviour that finishes every thread is the `run` of some picks, so that what is shown for
all picks is shown for all behaviours. -/
theorem exists_picks {c : Pool Op Res α σ} {as : List α} {s : σ}
    (h : Relation.ReflTransGen (Step sem) c (done as s)) : ∃ picks, run sem picks c = (as, s) := by
  induction h using Relation.ReflTransGen.head_induction_on with
  | refl => exact ⟨[], by simp [run, done, drain_returned]⟩
  | @head c c' hstep _ ih =>
      obtain ⟨picks, hpicks⟩ := ih
      obtain @⟨i, op, k, hget⟩ := hstep
      refine ⟨i :: picks, ?_⟩
      have hat : stepAt sem i c =
          ⟨c.threads.set i (k (sem op c.shared).1), (sem op c.shared).2⟩ := by
        simp [stepAt, hget]
      rw [← hpicks, ← hat]
      rfl

/-- What every step preserves holds after a run. -/
theorem run_induct {I : Pool Op Res α σ → Prop} (hstep : ∀ c c', I c → Step sem c c' → I c')
    (picks : List Nat) {c : Pool Op Res α σ} (h : I c) :
    I (done (run sem picks c).1 (run sem picks c).2) := by
  have hrun := run_steps sem picks c
  generalize done (run sem picks c).1 (run sem picks c).2 = c' at hrun
  induction hrun with
  | refl => exact h
  | tail _ hs ih => exact hstep _ _ ih hs

section Rule

variable {ι : Type}

/-- What is known of a pool with one thread for each of `ids`: `G` of the object, and `T` of the
object and each thread. -/
structure Knows (ids : List ι) (G : σ → Prop) (T : σ → ι → Prog Op Res α → Prop)
    (c : Pool Op Res α σ) : Prop where
  length : c.threads.length = ids.length
  shared : G c.shared
  threads : ∀ (pos : Nat) (i : ι) (q : Prog Op Res α), ids[pos]? = some i →
    c.threads[pos]? = some q → T c.shared i q

variable {ids : List ι} {G : σ → Prop} {T : σ → ι → Prog Op Res α → Prop}

/-- A step keeps what is known, if a call keeps what is known of the object, of the thread that
makes it and of every other thread. -/
theorem Knows.step (hnodup : ids.Nodup)
    (hcall : ∀ (s : σ) (i : ι) (op : Op) (k : Res op → Prog Op Res α), i ∈ ids → G s →
      T s i (.call op k) → G (sem op s).2 ∧ T (sem op s).2 i (k (sem op s).1) ∧
        ∀ j ≠ i, ∀ q, T s j q → T (sem op s).2 j q)
    (c c' : Pool Op Res α σ) (h : Knows ids G T c) (hstep : Step sem c c') :
    Knows ids G T c' := by
  obtain @⟨pos, op, k, hget⟩ := hstep
  have hpos : pos < ids.length := h.length ▸ (List.getElem?_eq_some_iff.1 hget).1
  have hi : ids[pos]? = some ids[pos] := List.getElem?_eq_getElem hpos
  generalize ids[pos] = i at hi
  obtain ⟨hG, hmoved, hothers⟩ :=
    hcall c.shared i op k (List.mem_of_getElem? hi) h.shared (h.threads pos i _ hi hget)
  refine ⟨by simpa using h.length, hG, fun pos' j q hj hq => ?_⟩
  by_cases hpp : pos' = pos
  · subst hpp
    obtain rfl : i = j := by simpa [hi] using hj
    have hq' : k (sem op c.shared).1 = q := by simpa [h.length, hpos] using hq
    exact hq' ▸ hmoved
  · have hne : j ≠ i := by
      rintro rfl
      have hlt := (List.getElem?_eq_some_iff.1 hj).1
      exact hpp ((List.getElem?_inj hlt hnodup).1 (hj.trans hi.symm))
    rw [List.getElem?_set_ne (Ne.symm hpp)] at hq
    exact hothers j hne q (h.threads pos' j q hj hq)

/-- What calls keep, and holds of the threads at their start, is known of what they return. -/
theorem run_rule (hnodup : ids.Nodup)
    (hcall : ∀ (s : σ) (i : ι) (op : Op) (k : Res op → Prog Op Res α), i ∈ ids → G s →
      T s i (.call op k) → G (sem op s).2 ∧ T (sem op s).2 i (k (sem op s).1) ∧
        ∀ j ≠ i, ∀ q, T s j q → T (sem op s).2 j q)
    {progs : ι → Prog Op Res α} {s : σ} (hG : G s) (hstart : ∀ i ∈ ids, T s i (progs i))
    (picks : List Nat) {as : List α} {s' : σ}
    (hrun : run sem picks ⟨ids.map progs, s⟩ = (as, s')) :
    as.length = ids.length ∧ G s' ∧
      ∀ (pos : Nat) (i : ι) (a : α), ids[pos]? = some i → as[pos]? = some a → T s' i (.ret a) := by
  have hknown : Knows ids G T ⟨ids.map progs, s⟩ := by
    refine ⟨List.length_map _, hG, fun pos i q hi hq => ?_⟩
    have hq' : progs i = q := by simpa [hi] using hq
    exact hq' ▸ hstart i (List.mem_of_getElem? hi)
  have hdone := run_induct sem (Knows.step sem hnodup hcall) picks hknown
  rw [hrun] at hdone
  refine ⟨by simpa [done, returned] using hdone.length, hdone.shared, fun pos i a hi ha => ?_⟩
  exact hdone.threads pos i (.ret a) hi (by simp [done, returned, ha])

end Rule

end Pool

/-! ## Fallible programs -/

/-- Operations one after another, with what each returns. -/
def runAll {ι : Type*} {ρ : Type} (step : σ → ι → Option (σ × ρ)) : σ → List ι → Option (σ × List ρ)
  | s, [] => some (s, [])
  | s, op :: ops => do
      let (s', r) ← step s op
      let (fin, rs) ← runAll step s' ops
      some (fin, r :: rs)

theorem runAll_cons {ι : Type*} {ρ : Type} {step : σ → ι → Option (σ × ρ)} {s s' : σ} {op : ι}
    {r : ρ} (h : step s op = some (s', r)) (ops : List ι) :
    runAll step s (op :: ops) = (runAll step s' ops).map (Prod.map id (r :: ·)) := by
  rw [runAll, h]
  cases hrest : runAll step s' ops with
  | none => simp [hrest]
  | some p =>
      simp only [Option.bind_eq_bind, Option.bind_some, hrest]
      rfl

section Fallible

variable {ε ε' α β : Type}

theorem bind_eq_ok_iff {x : Except ε α} {f : α → Except ε β} {b : β} :
    x >>= f = .ok b ↔ ∃ a, x = .ok a ∧ f a = .ok b := by
  cases x with
  | error e =>
      change Except.error e = .ok b ↔ _
      simp
  | ok a =>
      change f a = .ok b ↔ _
      simp

/-- The value, or the error where there is none. -/
def okOr (error : ε) : Option α → Except ε α
  | some a => .ok a
  | none => .error error

theorem okOr_eq_ok_iff {error : ε} {o : Option α} {a : α} : okOr error o = .ok a ↔ o = some a := by
  cases o with
  | none => simp [okOr]
  | some b => simp [okOr]

theorem mapError_eq_ok_iff {x : Except ε α} {f : ε → ε'} {a : α} :
    x.mapError f = .ok a ↔ x = .ok a := by
  cases x with
  | error e => simp [Except.mapError]
  | ok b => simp [Except.mapError]

theorem toOption_eq_some_iff {x : Except ε α} {a : α} : x.toOption = some a ↔ x = .ok a := by
  cases x with
  | error e => simp [Except.toOption]
  | ok b => simp [Except.toOption]

/-- A loop in which no step fails. -/
theorem mapM_eq_some_map {f : α → Option β} {g : α → β} {l : List α}
    (h : ∀ a ∈ l, f a = some (g a)) : l.mapM f = some (l.map g) := by
  induction l with
  | nil => rfl
  | cons a l ih =>
      obtain ⟨ha, hl⟩ := List.forall_mem_cons.1 h
      rw [List.mapM_cons, ha, ih hl]
      rfl

end Fallible
