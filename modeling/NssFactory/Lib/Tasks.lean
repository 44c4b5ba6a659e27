import Mathlib.Algebra.BigOperators.Group.Finset.Basic
import Mathlib.Algebra.Order.BigOperators.Group.Finset
import Mathlib.Logic.Function.Basic
import NssFactory.Lib.Steps

/-!
# Tasks that wait for flags

Worker `b` of `G` runs the tasks `b`, `b + G`, `b + 2 G`, … and raises the flag of each when it is
done. A program may wait for the flag of a lower task.

The memory is weak: every write of an address is kept, a worker's view says which of them it cannot
go behind, and a read returns any one from there on. A flag that is seen brings the view of the
worker that raised it.

Where every task has waited for the lower ones that share an address with it before it touches that
address (`Safe`), the workers leave what the tasks leave one after the other: `Inv` holds of every
state (`Inv.step`), and `Inv.progress` and `remaining` say that the workers come to an end.
-/

namespace NssFactory.Tasks

/-- A program on addresses `A` with values `V`; `note` sets a variable of the worker. -/
inductive Prog (A V L : Type)
  | ret
  | read (a : A) (next : V → Prog A V L)
  | write (a : A) (v : V) (next : Prog A V L)
  | await (p : Nat) (next : Prog A V L)
  | note (l : L) (next : Prog A V L)

/-- A task in progress: what is left of it, the write of each address that is not to be gone behind,
what the task touched, and its variable. -/
structure Worker (A V L : Type) where
  task : Nat
  rest : Prog A V L
  view : A → Nat
  touched : List A
  noted : Option L

/-- The writes of each address up to the latest, the flags with what they bring, and the workers. -/
structure State (A V L : Type) where
  hist : A → Nat → V
  latest : A → Nat
  flag : Nat → Option (A → Nat)
  worker : Nat → Worker A V L

section Machine

variable {A V L : Type} [DecidableEq A] (n G : Nat) (prog : Nat → Prog A V L) (first : A → V)

def launch (t : Nat) (view : A → Nat) : Worker A V L := ⟨t, prog t, view, [], none⟩

def start : State A V L where
  hist a _ := first a
  latest _ := 0
  flag _ := none
  worker b := launch prog b fun _ => 0

/-- A step of worker `e.1`; a read returns write `e.2`. -/
def step (s : State A V L) (e : Nat × Nat) : Option (State A V L) :=
  let c := s.worker e.1
  if e.1 < G ∧ c.task < n then
    match c.rest with
    | .ret => some { s with
        flag := Function.update s.flag c.task (some c.view)
        worker := Function.update s.worker e.1 (launch prog (c.task + G) c.view) }
    | .read a next =>
      if c.view a ≤ e.2 ∧ e.2 ≤ s.latest a then some { s with
        worker := Function.update s.worker e.1 { c with
          rest := next (s.hist a e.2), view := Function.update c.view a e.2, touched := a :: c.touched } }
      else none
    | .write a v next => some { s with
        hist := Function.update s.hist a (Function.update (s.hist a) (s.latest a + 1) v)
        latest := Function.update s.latest a (s.latest a + 1)
        worker := Function.update s.worker e.1 { c with
          rest := next, view := Function.update c.view a (s.latest a + 1), touched := a :: c.touched } }
    | .await p next =>
      match s.flag p with
      | some view => some { s with
          worker := Function.update s.worker e.1 { c with rest := next, view := fun a => max (c.view a) (view a) } }
      | none => none
    | .note l next => some { s with
        worker := Function.update s.worker e.1 { c with rest := next, noted := some l } }
  else none

/-! ## One task after the other -/

/-- What a program leaves when it runs alone. -/
def exec : Prog A V L → (A → V) → A → V
  | .ret, m => m
  | .read a next, m => exec (next (m a)) m
  | .write a v next, m => exec next (Function.update m a v)
  | .await _ next, m => exec next m
  | .note _ next, m => exec next m

/-- The memory before task `t` when the tasks run in order. -/
def memory : Nat → A → V
  | 0 => first
  | t + 1 => exec (prog t) (memory t)

/-- The steps of a program that runs alone. -/
def length : Prog A V L → (A → V) → Nat
  | .ret, _ => 0
  | .read a next, m => length (next (m a)) m + 1
  | .write a v next, m => length next (Function.update m a v) + 1
  | .await _ next, m => length next m + 1
  | .note _ next, m => length next m + 1

section Footprints

variable (F : Nat → A → Prop) (φ : Nat → L → Prop)

/-- An address of task `t` whose lower tasks have been waited for. -/
def Clear (t : Nat) (W : Nat → Prop) (a : A) : Prop := F t a ∧ ∀ p < t, F p a → W p

/-- The rest of task `t`, on the memory that it has alone, touches none but its own addresses, and those
only when it has waited for the lower tasks that have them too. -/
def Safe (t : Nat) : Prog A V L → (Nat → Prop) → (A → V) → Prop
  | .ret, W, _ => ∀ p < t, (∃ a, F p a ∧ F t a) → W p
  | .read a next, W, m => Clear F t W a ∧ Safe t (next (m a)) W m
  | .write a v next, W, m => Clear F t W a ∧ Safe t next W (Function.update m a v)
  | .await p next, W, m => p < t ∧ Safe t next (fun q => W q ∨ q = p) m
  | .note l next, W, m => φ t l ∧ Safe t next W m

end Footprints

end Machine

section Proofs

variable {A V L : Type} [DecidableEq A] {n G : Nat} {prog : Nat → Prog A V L} {first : A → V}
  {F : Nat → A → Prop} {φ : Nat → L → Prop}

/-! ## Tasks leave the addresses of others -/

theorem Safe.exec_off {t : Nat} {P : Prog A V L} {W : Nat → Prop} {m : A → V} (h : Safe F φ t P W m) {a : A}
    (ha : ¬ F t a) : exec P m a = m a := by
  induction P generalizing W m with
  | ret => rfl
  | read a' next ih => exact ih _ h.2
  | write a' v next ih =>
    have hne : a ≠ a' := fun heq => ha (heq ▸ h.1.1)
    exact (ih h.2).trans (Function.update_of_ne hne _ _)
  | await p next ih => exact ih h.2
  | note l next ih => exact ih h.2

/-- What no task in between has stays. -/
theorem memory_off (hsafe : ∀ t < n, Safe F φ t (prog t) (fun _ => False) (memory prog first t)) {a : A} {t t' : Nat}
    (hle : t ≤ t') (hn : t' ≤ n) (h : ∀ q, t ≤ q → q < t' → ¬ F q a) :
    memory prog first t' a = memory prog first t a := by
  induction t', hle using Nat.le_induction with
  | base => rfl
  | succ t' hle ih =>
    rw [memory, (hsafe t' (by omega)).exec_off (h t' hle (Nat.lt_succ_self t'))]
    exact ih (by omega) fun q hq hlt => h q hq (by omega)

omit [DecidableEq A] in
/-- The last task below `t` that has an address. -/
theorem last_below (a : A) (t : Nat) :
    (∀ p < t, ¬ F p a) ∨ ∃ p < t, F p a ∧ ∀ q, p < q → q < t → ¬ F q a := by
  induction t with
  | zero => exact .inl nofun
  | succ t ih =>
    by_cases hlast : F t a
    · exact .inr ⟨t, Nat.lt_succ_self t, hlast, fun q hq hlt => by omega⟩
    · cases ih with
      | inl hnone =>
        refine .inl fun p hp hpa => ?_
        by_cases hpt : p = t
        · exact hlast (hpt ▸ hpa)
        · exact hnone p (by omega) hpa
      | inr hsome =>
        obtain ⟨p, hp, hpa, hbetween⟩ := hsome
        refine .inr ⟨p, by omega, hpa, fun q hq hlt hqa => ?_⟩
        by_cases hqt : q = t
        · exact hlast (hqt ▸ hqa)
        · exact hbetween q hq (by omega) hqa

/-! ## The invariant -/

/-- The worker of a task and what the task has alone: `alone` is the memory that it would have now, `W` are the
tasks it has waited for. -/
structure Working (n : Nat) (prog : Nat → Prog A V L) (first : A → V) (F : Nat → A → Prop) (φ : Nat → L → Prop)
    (s : State A V L) (c : Worker A V L) (W : Nat → Prop) (alone : A → V) : Prop where
  safe : Safe F φ c.task c.rest W alone
  exec : exec c.rest alone = memory prog first (c.task + 1)
  untouched : ∀ a, a ∉ c.touched → alone a = memory prog first c.task a
  awaited : ∀ p, W p → ∃ view, s.flag p = some view ∧ ∀ a, view a ≤ c.view a
  clear : ∀ a ∈ c.touched, Clear F c.task W a
  current : ∀ a ∈ c.touched, s.hist a (s.latest a) = alone a ∧ c.view a = s.latest a
  noted : ∀ l, c.noted = some l → φ c.task l

/-- The tasks below `t` are done with an address, and the others have not begun with it. -/
structure Frontier (n G : Nat) (F : Nat → A → Prop) (s : State A V L) (a : A) (t : Nat) : Prop where
  done : ∀ p < t, F p a → s.flag p ≠ none
  waiting : ∀ p, t ≤ p → p < n → F p a → s.flag p = none
  untouched : ∀ b < G, (s.worker b).task < n → t ≤ (s.worker b).task → a ∉ (s.worker b).touched

/-- The flag of the last task that is done with an address brings its latest write. -/
structure Fresh (F : Nat → A → Prop) (s : State A V L) (a : A) (t : Nat) : Prop where
  last : ∀ p < t, F p a → (∀ q, p < q → q < t → ¬ F q a) → ∀ view, s.flag p = some view → view a = s.latest a
  none : (∀ p < t, ¬ F p a) → s.latest a = 0

structure Inv (n G : Nat) (prog : Nat → Prog A V L) (first : A → V) (F : Nat → A → Prop) (φ : Nat → L → Prop)
    (s : State A V L) (W : Nat → Nat → Prop) (alone : Nat → A → V) : Prop where
  working : ∀ b < G, (s.worker b).task < n → Working n prog first F φ s (s.worker b) (W b) (alone b)
  turn : ∀ b < G, (s.worker b).task % G = b
  flags : ∀ t < n, s.flag t = none ↔ (s.worker (t % G)).task ≤ t
  closed : ∀ t < n, s.flag t ≠ none → ∀ p < t, (∃ a, F p a ∧ F t a) → s.flag p ≠ none
  view : ∀ b < G, ∀ a, (s.worker b).view a ≤ s.latest a
  flagView : ∀ t view, s.flag t = some view → ∀ a, view a ≤ s.latest a
  frontier : ∀ a t, t ≤ n → Frontier n G F s a t →
    s.hist a (s.latest a) = memory prog first t a ∧ Fresh F s a t

variable {s s' : State A V L} {W : Nat → Nat → Prop} {alone : Nat → A → V} {b b' : Nat} {a : A}

/-- A task in progress is not done. -/
theorem Inv.unfinished (h : Inv n G prog first F φ s W alone) (hb : b < G) (ht : (s.worker b).task < n) :
    s.flag (s.worker b).task = none := by
  rw [h.flags _ ht, h.turn b hb]

/-- Two workers have different tasks. -/
theorem Inv.task_ne (h : Inv n G prog first F φ s W alone) (hb : b < G) (hb' : b' < G) (hne : b ≠ b') :
    (s.worker b).task ≠ (s.worker b').task := by
  intro heq
  have hturn := h.turn b hb
  rw [heq, h.turn b' hb'] at hturn
  exact hne hturn.symm

theorem Inv.waited (h : Inv n G prog first F φ s W alone) (hb : b < G) (ht : (s.worker b).task < n) {p : Nat}
    (hp : W b p) : s.flag p ≠ none := by
  obtain ⟨view, hview, -⟩ := (h.working b hb ht).awaited p hp
  rw [hview]
  exact Option.some_ne_none _

/-- No two tasks in progress have begun with one address. -/
theorem Inv.apart (h : Inv n G prog first F φ s W alone) (hb : b < G) (hb' : b' < G) (hne : b ≠ b')
    (ht : (s.worker b).task < n) (ht' : (s.worker b').task < n) (hclear : Clear F (s.worker b).task (W b) a) :
    a ∉ (s.worker b').touched := by
  intro htouched
  have hclear' := (h.working b' hb' ht').clear a htouched
  obtain hlt | heq | hgt := Nat.lt_trichotomy (s.worker b).task (s.worker b').task
  · exact h.waited hb' ht' (hclear'.2 _ hlt hclear.1) (h.unfinished hb ht)
  · exact h.task_ne hb hb' hne heq
  · exact h.waited hb ht (hclear.2 _ hgt hclear'.1) (h.unfinished hb' ht')

/-- Where a task may touch an address, all before it are done with it and nobody after it has begun. -/
theorem Inv.frontier_of_clear (h : Inv n G prog first F φ s W alone) (hb : b < G) (ht : (s.worker b).task < n)
    (hclear : Clear F (s.worker b).task (W b) a) (htouched : a ∉ (s.worker b).touched) :
    Frontier n G F s a (s.worker b).task := by
  refine ⟨fun p hp hpa => h.waited hb ht (hclear.2 p hp hpa), fun p hp hpn hpa => ?_, fun b' hb' ht' _ => ?_⟩
  · by_cases heq : p = (s.worker b).task
    · exact heq ▸ h.unfinished hb ht
    · by_contra hdone
      exact h.closed p hpn hdone (s.worker b).task (by omega) ⟨a, hclear.1, hpa⟩ (h.unfinished hb ht)
  · by_cases hsame : b = b'
    · exact hsame ▸ htouched
    · exact h.apart hb hb' hsame ht ht' hclear

/-- What a task may touch is as it has it alone, and its worker can read nothing else there. -/
theorem Inv.current (h : Inv n G prog first F φ s W alone) (hb : b < G) (ht : (s.worker b).task < n)
    (hclear : Clear F (s.worker b).task (W b) a) :
    s.hist a (s.latest a) = alone b a ∧ (s.worker b).view a = s.latest a := by
  have hworking := h.working b hb ht
  by_cases htouched : a ∈ (s.worker b).touched
  · exact hworking.current a htouched
  · obtain ⟨hvalue, hfresh⟩ := h.frontier a _ ht.le (h.frontier_of_clear hb ht hclear htouched)
    refine ⟨hvalue.trans (hworking.untouched a htouched).symm, Nat.le_antisymm (h.view b hb a) ?_⟩
    obtain hnone | ⟨p, hp, hpa, hbetween⟩ := last_below (F := F) a (s.worker b).task
    · rw [hfresh.none hnone]
      exact Nat.zero_le _
    · obtain ⟨view, hflag, hle⟩ := hworking.awaited p (hclear.2 p hp hpa)
      rw [← hfresh.last p hp hpa hbetween view hflag]
      exact hle a

/-! ### Steps -/

/-- A step inside a task. -/
theorem Inv.advance (h : Inv n G prog first F φ s W alone) (hb : b < G) (ht : (s.worker b).task < n)
    {c : Worker A V L} {W' : Nat → Prop} {alone' : A → V} (hflag : s'.flag = s.flag)
    (hworker : s'.worker = Function.update s.worker b c) (htask : c.task = (s.worker b).task)
    (hgrow : ∀ a ∈ (s.worker b).touched, a ∈ c.touched)
    (hsame : ∀ a, a ∉ c.touched → s'.hist a = s.hist a ∧ s'.latest a = s.latest a)
    (hlatest : ∀ a, s.latest a ≤ s'.latest a) (hclear : ∀ a ∈ c.touched, Clear F (s.worker b).task (W b) a)
    (hview : ∀ a, c.view a ≤ s'.latest a) (hworking : Working n prog first F φ s' c W' alone') :
    Inv n G prog first F φ s' (Function.update W b W') (Function.update alone b alone') := by
  have hown : s'.worker b = c := by rw [hworker, Function.update_self]
  have hother : ∀ b' ≠ b, s'.worker b' = s.worker b' := fun b' hne => by rw [hworker, Function.update_of_ne hne]
  have htasks : ∀ b', (s'.worker b').task = (s.worker b').task := by
    intro b'
    by_cases heq : b' = b
    · rw [heq, hown, htask]
    · rw [hother b' heq]
  refine ⟨fun b' hb' ht' => ?_, fun b' hb' => ?_, fun t htn => ?_, ?_, fun b' hb' a => ?_, ?_, fun a t htn hF => ?_⟩
  · by_cases heq : b' = b
    · subst heq
      rw [hown, Function.update_self, Function.update_self]
      exact hworking
    · rw [htasks] at ht'
      rw [hother b' heq, Function.update_of_ne heq, Function.update_of_ne heq]
      have hold := h.working b' hb' ht'
      refine ⟨hold.safe, hold.exec, hold.untouched, fun p hp => ?_, hold.clear, fun a ha => ?_, hold.noted⟩
      · rw [hflag]
        exact hold.awaited p hp
      · have hapart : a ∉ c.touched := fun htouched =>
          h.apart hb hb' (Ne.symm heq) ht ht' (hclear a htouched) ha
        obtain ⟨hhist, hl⟩ := hsame a hapart
        rw [hhist, hl]
        exact hold.current a ha
  · rw [htasks]
    exact h.turn b' hb'
  · rw [hflag, htasks]
    exact h.flags t htn
  · rw [hflag]
    exact h.closed
  · by_cases heq : b' = b
    · rw [heq, hown]
      exact hview a
    · rw [hother b' heq]
      exact (h.view b' hb' a).trans (hlatest a)
  · rw [hflag]
    exact fun t view hview a => (h.flagView t view hview a).trans (hlatest a)
  · by_cases htouched : a ∈ c.touched
    · -- The worker has begun with it, so its task is among those that are done.
      have hlt : (s.worker b).task < t := by
        by_contra hle
        refine hF.untouched b hb (by rw [htasks]; exact ht) (by rw [htasks]; omega) ?_
        rw [hown]
        exact htouched
      have hdone := hF.done _ hlt (hclear a htouched).1
      rw [hflag] at hdone
      exact absurd (h.unfinished hb ht) hdone
    · obtain ⟨hhist, hl⟩ := hsame a htouched
      have hold : Frontier n G F s a t := by
        refine ⟨fun p hp hpa => hflag ▸ hF.done p hp hpa, fun p hp hpn hpa => hflag ▸ hF.waiting p hp hpn hpa,
          fun b' hb' ht' hle => ?_⟩
        have hnot := hF.untouched b' hb' (by rw [htasks]; exact ht') (by rw [htasks]; exact hle)
        by_cases heq : b' = b
        · subst heq
          exact fun hmem => htouched (hgrow a hmem)
        · rwa [hother b' heq] at hnot
      obtain ⟨hvalue, hfresh⟩ := h.frontier a t htn hold
      rw [hhist, hl]
      refine ⟨hvalue, fun p hp hpa hbetween view hv => ?_, fun hnone => ?_⟩
      · rw [hl]
        exact hfresh.last p hp hpa hbetween view (hflag ▸ hv)
      · rw [hl]
        exact hfresh.none hnone

/-- The tasks of a worker are `G` apart. -/
theorem next_le {t t' : Nat} (hmod : t' % G = t % G) (hne : t' ≠ t) : t ≤ t' ↔ t + G ≤ t' := by
  constructor
  · intro hle
    have hdvd : G ∣ t' - t := Nat.dvd_of_mod_eq_zero (Nat.sub_mod_eq_zero_of_mod_eq hmod)
    have := Nat.le_of_dvd (by omega) hdvd
    omega
  · intro hle
    omega

/-- The end of a task. -/
theorem Inv.finish (hsafe : ∀ t < n, Safe F φ t (prog t) (fun _ => False) (memory prog first t))
    (h : Inv n G prog first F φ s W alone) (hb : b < G) (ht : (s.worker b).task < n)
    (hrest : (s.worker b).rest = .ret) :
    Inv n G prog first F φ { s with
        flag := Function.update s.flag (s.worker b).task (some (s.worker b).view)
        worker := Function.update s.worker b (launch prog ((s.worker b).task + G) (s.worker b).view) }
      (Function.update W b fun _ => False)
      (Function.update alone b (memory prog first ((s.worker b).task + G))) := by
  have hworking := h.working b hb ht
  have hnone := h.unfinished hb ht
  have hturn := h.turn b hb
  have hconflict : ∀ p < (s.worker b).task, (∃ a, F p a ∧ F (s.worker b).task a) → W b p := by
    have hret := hworking.safe
    rw [hrest] at hret
    exact hret
  have hleft : alone b = memory prog first ((s.worker b).task + 1) := by
    have hexec := hworking.exec
    rw [hrest] at hexec
    exact hexec
  have hcurrent : ∀ a, F (s.worker b).task a → s.hist a (s.latest a) = alone b a ∧
      (s.worker b).view a = s.latest a := fun a ha =>
    h.current hb ht ⟨ha, fun p hp hpa => hconflict p hp ⟨a, hpa, ha⟩⟩
  have hraised : Function.update s.flag (s.worker b).task (some (s.worker b).view) (s.worker b).task =
      some (s.worker b).view := Function.update_self _ _ _
  have hflag : ∀ p ≠ (s.worker b).task,
      Function.update s.flag (s.worker b).task (some (s.worker b).view) p = s.flag p := fun p hp =>
    Function.update_of_ne hp _ _
  have hkeep : ∀ p, s.flag p ≠ none →
      Function.update s.flag (s.worker b).task (some (s.worker b).view) p ≠ none := by
    intro p hp
    rw [hflag p fun heq => hp (heq ▸ hnone)]
    exact hp
  refine ⟨fun b' hb' ht' => ?_, fun b' hb' => ?_, fun t htn => ?_, fun t htn hdone p hp hpt => ?_,
    fun b' hb' a => ?_, fun t view hview a => ?_, fun a t htn hF => ?_⟩
  · by_cases heq : b' = b
    · subst heq
      dsimp only at ht' ⊢
      rw [Function.update_self] at ht'
      simp only [Function.update_self]
      exact ⟨hsafe _ ht', rfl, fun _ _ => rfl, nofun, nofun, nofun, nofun⟩
    · dsimp only at ht' ⊢
      rw [Function.update_of_ne heq] at ht'
      simp only [Function.update_of_ne heq]
      have hold := h.working b' hb' ht'
      refine ⟨hold.safe, hold.exec, hold.untouched, fun p hp => ?_, hold.clear, hold.current, hold.noted⟩
      obtain ⟨view, hview, hle⟩ := hold.awaited p hp
      refine ⟨view, ?_, hle⟩
      dsimp only
      rw [hflag p fun hpt => Option.some_ne_none view (hview.symm.trans (hpt ▸ hnone))]
      exact hview
  · by_cases heq : b' = b
    · subst heq
      simp only [Function.update_self]
      exact (Nat.add_mod_right _ _).trans hturn
    · simp only [Function.update_of_ne heq]
      exact h.turn b' hb'
  · dsimp only
    by_cases heq : t = (s.worker b).task
    · subst heq
      rw [hraised, hturn, Function.update_self]
      exact iff_of_false (Option.some_ne_none _) (by dsimp only [launch]; omega)
    · rw [hflag t heq, h.flags t htn]
      by_cases hmine : t % G = b
      · rw [hmine, Function.update_self]
        exact next_le (hmine.trans hturn.symm) heq
      · rw [Function.update_of_ne hmine]
  · by_cases heq : t = (s.worker b).task
    · subst heq
      exact hkeep p (h.waited hb ht (hconflict p hp hpt))
    · dsimp only at hdone
      rw [hflag t heq] at hdone
      exact hkeep p (h.closed t htn hdone p hp hpt)
  · by_cases heq : b' = b
    · subst heq
      simp only [Function.update_self]
      exact h.view b' hb' a
    · simp only [Function.update_of_ne heq]
      exact h.view b' hb' a
  · dsimp only at hview
    by_cases heq : t = (s.worker b).task
    · subst heq
      rw [hraised] at hview
      cases hview
      exact h.view b hb a
    · rw [hflag t heq] at hview
      exact h.flagView t view hview a
  · by_cases ha : F (s.worker b).task a
    · -- The task is now the last one that is done with `a`.
      have hlt : (s.worker b).task < t := by
        by_contra hle
        have hwaiting := hF.waiting _ (Nat.not_lt.mp hle) ht ha
        dsimp only at hwaiting
        rw [hraised] at hwaiting
        cases hwaiting
      have hbetween : ∀ q, (s.worker b).task < q → q < t → ¬ F q a := by
        intro q hq hqt hqa
        have hdone := hF.done q hqt hqa
        dsimp only at hdone
        rw [hflag q (by omega)] at hdone
        exact h.closed q (by omega) hdone _ hq ⟨a, ha, hqa⟩ hnone
      obtain ⟨hvalue, hview⟩ := hcurrent a ha
      refine ⟨?_, fun p hp hpa hlast view hv => ?_, fun hnobody => absurd ha (hnobody _ hlt)⟩
      · have hoff : memory prog first t a = memory prog first ((s.worker b).task + 1) a :=
          memory_off hsafe hlt htn fun q hq hqt => hbetween q hq hqt
        rw [hvalue, hoff, hleft]
      · have hp' : p = (s.worker b).task := by
          obtain hlow | heq | hhigh := Nat.lt_trichotomy p (s.worker b).task
          · exact absurd ha (hlast _ hlow hlt)
          · exact heq
          · exact absurd hpa (hbetween p hhigh hp)
        subst hp'
        dsimp only at hv
        rw [hraised] at hv
        cases hv
        exact hview
    · have hne : ∀ p, F p a → p ≠ (s.worker b).task := fun p hpa heq => ha (heq ▸ hpa)
      have hold : Frontier n G F s a t := by
        refine ⟨fun p hp hpa => ?_, fun p hp hpn hpa => ?_, fun b' hb' ht' hle => ?_⟩
        · have hdone := hF.done p hp hpa
          dsimp only at hdone
          rwa [hflag p (hne p hpa)] at hdone
        · have hwaiting := hF.waiting p hp hpn hpa
          dsimp only at hwaiting
          rwa [hflag p (hne p hpa)] at hwaiting
        · by_cases heq : b' = b
          · subst heq
            exact fun hmem => ha (hworking.clear a hmem).1
          · have hnot := hF.untouched b' hb'
            simp only [Function.update_of_ne heq] at hnot
            exact hnot ht' hle
      obtain ⟨hvalue, hfresh⟩ := h.frontier a t htn hold
      refine ⟨hvalue, fun p hp hpa hbetween view hv => ?_, hfresh.none⟩
      dsimp only at hv
      rw [hflag p (hne p hpa)] at hv
      exact hfresh.last p hp hpa hbetween view hv

/-! ### How long the workers run -/

/-- The steps that task `t` has left, with the one that raises its flag. -/
def cost (G : Nat) (prog : Nat → Prog A V L) (first : A → V) (s : State A V L) (alone : Nat → A → V) (t : Nat) : Nat :=
  match s.flag t with
  | some _ => 0
  | none =>
    if (s.worker (t % G)).task = t then length (s.worker (t % G)).rest (alone (t % G)) + 1
    else length (prog t) (memory prog first t) + 1

def remaining (n G : Nat) (prog : Nat → Prog A V L) (first : A → V) (s : State A V L) (alone : Nat → A → V) : Nat :=
  ∑ t ∈ Finset.range n, cost G prog first s alone t

omit [DecidableEq A] in
theorem sum_decrease {f g : Nat → Nat} {t : Nat} (ht : t < n) (hown : g t + 1 = f t) (hother : ∀ q ≠ t, g q = f q) :
    ∑ q ∈ Finset.range n, g q + 1 = ∑ q ∈ Finset.range n, f q := by
  have hmem : t ∈ Finset.range n := Finset.mem_range.mpr ht
  have hrest : ∑ q ∈ (Finset.range n).erase t, g q = ∑ q ∈ (Finset.range n).erase t, f q :=
    Finset.sum_congr rfl fun q hq => hother q (Finset.ne_of_mem_erase hq)
  rw [← Finset.add_sum_erase _ f hmem, ← Finset.add_sum_erase _ g hmem, ← hown, hrest]
  exact Nat.add_right_comm _ _ _

theorem remaining_advance (h : Inv n G prog first F φ s W alone) (hb : b < G) (ht : (s.worker b).task < n)
    {c : Worker A V L} {alone' : A → V} (hflag : s'.flag = s.flag)
    (hworker : s'.worker = Function.update s.worker b c) (htask : c.task = (s.worker b).task)
    (hlength : length c.rest alone' + 1 = length (s.worker b).rest (alone b)) :
    remaining n G prog first s' (Function.update alone b alone') + 1 = remaining n G prog first s alone := by
  refine sum_decrease ht ?_ fun q hq => ?_
  · unfold cost
    rw [hflag, h.unfinished hb ht]
    dsimp only
    rw [h.turn b hb, hworker, Function.update_self, Function.update_self, htask, if_pos rfl, if_pos rfl, hlength]
  · unfold cost
    rw [hflag, hworker]
    by_cases hmine : q % G = b
    · have hne : ¬ (s.worker b).task = q := fun heq => hq heq.symm
      rw [hmine, Function.update_self, htask, if_neg hne, if_neg hne]
    · rw [Function.update_of_ne hmine, Function.update_of_ne hmine]

theorem remaining_finish (h : Inv n G prog first F φ s W alone) (hb : b < G) (ht : (s.worker b).task < n)
    (hrest : (s.worker b).rest = .ret) {view : A → Nat}
    (hflag : s'.flag = Function.update s.flag (s.worker b).task (some view))
    (hworker : s'.worker = Function.update s.worker b (launch prog ((s.worker b).task + G) view)) :
    remaining n G prog first s' (Function.update alone b (memory prog first ((s.worker b).task + G))) + 1 =
      remaining n G prog first s alone := by
  have hturn := h.turn b hb
  refine sum_decrease ht ?_ fun q hq => ?_
  · unfold cost
    rw [hflag, Function.update_self, h.unfinished hb ht]
    dsimp only
    rw [hturn, if_pos rfl, hrest, length]
  · unfold cost
    rw [hflag, hworker, Function.update_of_ne hq]
    by_cases hmine : q % G = b
    · have hne : ¬ (s.worker b).task = q := fun heq => hq heq.symm
      rw [hmine, Function.update_self, Function.update_self, if_neg hne, launch]
      dsimp only
      by_cases hnext : (s.worker b).task + G = q
      · rw [if_pos hnext, hnext]
      · rw [if_neg hnext]
    · rw [Function.update_of_ne hmine, Function.update_of_ne hmine]

/-! ### Every step keeps the invariant -/

/-- The invariant after a step, with one step less to go. -/
def Next (n G : Nat) (prog : Nat → Prog A V L) (first : A → V) (F : Nat → A → Prop) (φ : Nat → L → Prop)
    (s : State A V L) (alone : Nat → A → V) (s' : State A V L) : Prop :=
  ∃ W' alone', Inv n G prog first F φ s' W' alone' ∧
    remaining n G prog first s' alone' + 1 = remaining n G prog first s alone

section Instructions

variable {c : Worker A V L}

theorem Inv.next_read (h : Inv n G prog first F φ s W alone) (hb : b < G) (ht : (s.worker b).task < n)
    {next : V → Prog A V L} {i : Nat} (hrest : (s.worker b).rest = .read a next)
    (hi : (s.worker b).view a ≤ i ∧ i ≤ s.latest a) :
    Next n G prog first F φ s alone { s with
      worker := Function.update s.worker b { s.worker b with
        rest := next (s.hist a i), view := Function.update (s.worker b).view a i
        touched := a :: (s.worker b).touched } } := by
  have hworking := h.working b hb ht
  have hs := hworking.safe
  have hexec := hworking.exec
  rw [hrest] at hs hexec
  obtain ⟨hvalue, hview⟩ := h.current hb ht hs.1
  obtain rfl : i = s.latest a := by omega
  have hsame : Function.update (s.worker b).view a (s.latest a) = (s.worker b).view := by
    rw [← hview, Function.update_eq_self]
  rw [hvalue, hsame]
  have hclear : ∀ a' ∈ a :: (s.worker b).touched, Clear F (s.worker b).task (W b) a' := by
    intro a' ha'
    cases List.mem_cons.mp ha' with
    | inl heq => exact heq ▸ hs.1
    | inr hmem => exact hworking.clear a' hmem
  have hafter : Working n prog first F φ { s with
      worker := Function.update s.worker b { s.worker b with
        rest := next (alone b a), view := (s.worker b).view, touched := a :: (s.worker b).touched } }
      { s.worker b with rest := next (alone b a), view := (s.worker b).view, touched := a :: (s.worker b).touched }
      (W b) (alone b) := by
    refine ⟨hs.2, hexec, fun a' ha' => hworking.untouched a' fun hmem => ha' (List.mem_cons_of_mem _ hmem),
      hworking.awaited, hclear, fun a' ha' => h.current hb ht (hclear a' ha'), hworking.noted⟩
  refine ⟨_, _, h.advance hb ht rfl rfl rfl (fun a' ha' => List.mem_cons_of_mem _ ha') (fun _ _ => ⟨rfl, rfl⟩)
    (fun _ => Nat.le_refl _) hclear (h.view b hb) hafter, remaining_advance h hb ht rfl rfl rfl ?_⟩
  rw [hrest]
  rfl

theorem Inv.next_write (h : Inv n G prog first F φ s W alone) (hb : b < G) (ht : (s.worker b).task < n)
    {next : Prog A V L} {v : V} (hrest : (s.worker b).rest = .write a v next) :
    Next n G prog first F φ s alone { s with
      hist := Function.update s.hist a (Function.update (s.hist a) (s.latest a + 1) v)
      latest := Function.update s.latest a (s.latest a + 1)
      worker := Function.update s.worker b { s.worker b with
        rest := next, view := Function.update (s.worker b).view a (s.latest a + 1)
        touched := a :: (s.worker b).touched } } := by
  have hworking := h.working b hb ht
  have hs := hworking.safe
  have hexec := hworking.exec
  rw [hrest] at hs hexec
  have hlatest : ∀ a', s.latest a' ≤ Function.update s.latest a (s.latest a + 1) a' := by
    intro a'
    by_cases heq : a' = a
    · subst heq
      rw [Function.update_self]
      exact Nat.le_succ _
    · rw [Function.update_of_ne heq]
  have hclear : ∀ a' ∈ a :: (s.worker b).touched, Clear F (s.worker b).task (W b) a' := by
    intro a' ha'
    cases List.mem_cons.mp ha' with
    | inl heq => exact heq ▸ hs.1
    | inr hmem => exact hworking.clear a' hmem
  have hafter : Working n prog first F φ { s with
      hist := Function.update s.hist a (Function.update (s.hist a) (s.latest a + 1) v)
      latest := Function.update s.latest a (s.latest a + 1)
      worker := Function.update s.worker b { s.worker b with
        rest := next, view := Function.update (s.worker b).view a (s.latest a + 1)
        touched := a :: (s.worker b).touched } }
      { s.worker b with
        rest := next, view := Function.update (s.worker b).view a (s.latest a + 1)
        touched := a :: (s.worker b).touched }
      (W b) (Function.update (alone b) a v) := by
    refine ⟨hs.2, hexec, fun a' ha' => ?_, fun p hp => ?_, hclear, fun a' ha' => ?_, hworking.noted⟩
    · have hne : a' ≠ a := fun heq => ha' (heq ▸ List.mem_cons_self)
      rw [Function.update_of_ne hne]
      exact hworking.untouched a' fun hmem => ha' (List.mem_cons_of_mem _ hmem)
    · obtain ⟨view, hview, hle⟩ := hworking.awaited p hp
      refine ⟨view, hview, fun a' => ?_⟩
      by_cases heq : a' = a
      · subst heq
        have := hle a'
        have := h.view b hb a'
        dsimp only
        rw [Function.update_self]
        omega
      · dsimp only
        rw [Function.update_of_ne heq]
        exact hle a'
    · by_cases heq : a' = a
      · subst heq
        simp only [Function.update_self, and_self]
      · simp only [Function.update_of_ne heq]
        exact h.current hb ht (hclear a' ha')
  refine ⟨_, _, h.advance hb ht rfl rfl rfl (fun a' ha' => List.mem_cons_of_mem _ ha') (fun a' ha' => ?_) hlatest
    hclear (fun a' => ?_) hafter, remaining_advance h hb ht rfl rfl rfl ?_⟩
  · have hne : a' ≠ a := fun heq => ha' (heq ▸ List.mem_cons_self)
    exact ⟨Function.update_of_ne hne _ _, Function.update_of_ne hne _ _⟩
  · by_cases heq : a' = a
    · subst heq
      simp only [Function.update_self]
      exact Nat.le_refl _
    · simp only [Function.update_of_ne heq]
      exact h.view b hb a'
  · rw [hrest]
    rfl

theorem Inv.next_await (h : Inv n G prog first F φ s W alone) (hb : b < G) (ht : (s.worker b).task < n)
    {next : Prog A V L} {p : Nat} {view : A → Nat} (hrest : (s.worker b).rest = .await p next)
    (hflag : s.flag p = some view) :
    Next n G prog first F φ s alone { s with
      worker := Function.update s.worker b { s.worker b with
        rest := next, view := fun a => max ((s.worker b).view a) (view a) } } := by
  have hworking := h.working b hb ht
  have hs := hworking.safe
  have hexec := hworking.exec
  rw [hrest] at hs hexec
  have hafter : Working n prog first F φ { s with
      worker := Function.update s.worker b { s.worker b with
        rest := next, view := fun a => max ((s.worker b).view a) (view a) } }
      { s.worker b with rest := next, view := fun a => max ((s.worker b).view a) (view a) }
      (fun q => W b q ∨ q = p) (alone b) := by
    refine ⟨hs.2, hexec, hworking.untouched, fun q hq => ?_, fun a ha => ?_, fun a ha => ?_, hworking.noted⟩
    · cases hq with
      | inl hq =>
        obtain ⟨old, hold, hle⟩ := hworking.awaited q hq
        exact ⟨old, hold, fun a => (hle a).trans (Nat.le_max_left _ _)⟩
      | inr heq => exact ⟨view, heq ▸ hflag, fun a => Nat.le_max_right _ _⟩
    · have hclear := hworking.clear a ha
      exact ⟨hclear.1, fun q hq hqa => .inl (hclear.2 q hq hqa)⟩
    · obtain ⟨hvalue, hcurrent⟩ := hworking.current a ha
      refine ⟨hvalue, ?_⟩
      dsimp only
      rw [hcurrent]
      exact Nat.max_eq_left (h.flagView p view hflag a)
  refine ⟨_, _, h.advance hb ht rfl rfl rfl (fun _ ha => ha) (fun _ _ => ⟨rfl, rfl⟩) (fun _ => Nat.le_refl _)
    hworking.clear (fun a => Nat.max_le.mpr ⟨h.view b hb a, h.flagView p view hflag a⟩) hafter,
    remaining_advance h hb ht rfl rfl rfl ?_⟩
  rw [hrest]
  rfl

theorem Inv.next_note (h : Inv n G prog first F φ s W alone) (hb : b < G) (ht : (s.worker b).task < n)
    {next : Prog A V L} {l : L} (hrest : (s.worker b).rest = .note l next) :
    Next n G prog first F φ s alone { s with
      worker := Function.update s.worker b { s.worker b with rest := next, noted := some l } } := by
  have hworking := h.working b hb ht
  have hs := hworking.safe
  have hexec := hworking.exec
  rw [hrest] at hs hexec
  have hafter : Working n prog first F φ { s with
      worker := Function.update s.worker b { s.worker b with rest := next, noted := some l } }
      { s.worker b with rest := next, noted := some l } (W b) (alone b) := by
    refine ⟨hs.2, hexec, hworking.untouched, hworking.awaited, hworking.clear, hworking.current, fun l' hl' => ?_⟩
    cases hl'
    exact hs.1
  refine ⟨_, _, h.advance hb ht rfl rfl rfl (fun _ ha => ha) (fun _ _ => ⟨rfl, rfl⟩) (fun _ => Nat.le_refl _)
    hworking.clear (h.view b hb) hafter, remaining_advance h hb ht rfl rfl rfl ?_⟩
  rw [hrest]
  rfl

end Instructions

theorem Inv.next (hsafe : ∀ t < n, Safe F φ t (prog t) (fun _ => False) (memory prog first t))
    (h : Inv n G prog first F φ s W alone) {e : Nat × Nat} (hstep : step n G prog s e = some s') :
    Next n G prog first F φ s alone s' := by
  unfold step at hstep
  dsimp only at hstep
  by_cases hrun : e.1 < G ∧ (s.worker e.1).task < n
  · obtain ⟨hb, ht⟩ := hrun
    rw [if_pos ⟨hb, ht⟩] at hstep
    cases hrest : (s.worker e.1).rest with
    | ret =>
      rw [hrest] at hstep
      cases hstep
      exact ⟨_, _, h.finish hsafe hb ht hrest, remaining_finish h hb ht hrest rfl rfl⟩
    | read a next =>
      rw [hrest] at hstep
      dsimp only at hstep
      split at hstep
      · rename_i hi
        cases hstep
        exact h.next_read hb ht hrest hi
      · cases hstep
    | write a v next =>
      rw [hrest] at hstep
      cases hstep
      exact h.next_write hb ht hrest
    | await p next =>
      rw [hrest] at hstep
      dsimp only at hstep
      split at hstep
      · rename_i view hflag
        cases hstep
        exact h.next_await hb ht hrest hflag
      · cases hstep
    | note l next =>
      rw [hrest] at hstep
      cases hstep
      exact h.next_note hb ht hrest
  · rw [if_neg hrun] at hstep
    cases hstep

/-! ## Whole runs -/

theorem Inv.start (hsafe : ∀ t < n, Safe F φ t (prog t) (fun _ => False) (memory prog first t)) :
    Inv n G prog first F φ (start prog first) (fun _ _ => False) fun b => memory prog first b := by
  refine ⟨fun b _ ht => ⟨hsafe b ht, rfl, fun _ _ => rfl, nofun, nofun, nofun, nofun⟩, fun b hb => Nat.mod_eq_of_lt hb,
    fun t _ => iff_of_true rfl (Nat.mod_le t G), fun _ _ hdone => absurd rfl hdone, fun _ _ _ => Nat.le_refl 0, nofun,
    fun a t htn hF => ⟨?_, nofun, fun _ => rfl⟩⟩
  -- Nobody is done, so nobody below `t` has the address.
  have hoff : memory prog first t a = memory prog first 0 a :=
    memory_off hsafe (Nat.zero_le t) htn fun q _ hqt hqa => hF.done q hqt hqa rfl
  exact hoff.symm

/-- The steps of a run. -/
abbrev Path (n G : Nat) (prog : Nat → Prog A V L) : State A V L → List (Nat × Nat) → State A V L → Prop :=
  NssFactory.Path fun s e s' => step n G prog s e = some s'

theorem Path.inv (hsafe : ∀ t < n, Safe F φ t (prog t) (fun _ => False) (memory prog first t))
    {es : List (Nat × Nat)} (h : Path n G prog s es s') (hinv : Inv n G prog first F φ s W alone) :
    ∃ W' alone', Inv n G prog first F φ s' W' alone' ∧
      remaining n G prog first s' alone' + es.length = remaining n G prog first s alone := by
  induction h generalizing W alone with
  | nil c => exact ⟨W, alone, hinv, rfl⟩
  | cons hs hrest ih =>
    obtain ⟨W₁, alone₁, hinv₁, hless⟩ := hinv.next hsafe hs
    obtain ⟨W', alone', hinv', hlength⟩ := ih hinv₁
    refine ⟨W', alone', hinv', ?_⟩
    rw [List.length_cons]
    omega

/-- All tasks are done. -/
def Finished (n G : Nat) (s : State A V L) : Prop := ∀ b < G, n ≤ (s.worker b).task

/-- The worker of the lowest task that is not done can make a step, whatever the others do. -/
theorem Inv.progress (hG : 0 < G) (h : Inv n G prog first F φ s W alone) (hrun : ¬ Finished n G s) :
    ∃ e s', step n G prog s e = some s' := by
  have hsome : ∃ t < n, s.flag t = none := by
    obtain ⟨b, hb⟩ := not_forall.mp hrun
    obtain ⟨hb, ht⟩ := Classical.not_imp.mp hb
    exact ⟨(s.worker b).task, Nat.not_le.mp ht, h.unfinished hb (Nat.not_le.mp ht)⟩
  obtain ⟨t, ⟨htn, hnone⟩, hleast⟩ : ∃ t, (t < n ∧ s.flag t = none) ∧ ∀ q < t, ¬ (q < n ∧ s.flag q = none) := by
    classical exact ⟨Nat.find hsome, Nat.find_spec hsome, fun q hq => Nat.find_min hsome hq⟩
  have hb : t % G < G := Nat.mod_lt t hG
  have hle := (h.flags t htn).mp hnone
  have htask : (s.worker (t % G)).task = t := by
    by_contra hne
    exact hleast (s.worker (t % G)).task (by omega) ⟨by omega, h.unfinished hb (by omega)⟩
  have hstep : ∀ i, step n G prog s (t % G, i) = _ := fun i => if_pos ⟨hb, htask.symm ▸ htn⟩
  have hworking := h.working _ hb (htask.symm ▸ htn)
  cases hrest : (s.worker (t % G)).rest with
  | ret =>
    refine ⟨(t % G, 0), Option.isSome_iff_exists.mp ?_⟩
    rw [hstep]
    dsimp only
    rw [hrest]
    rfl
  | read a next =>
    refine ⟨(t % G, s.latest a), Option.isSome_iff_exists.mp ?_⟩
    rw [hstep]
    dsimp only
    rw [hrest]
    dsimp only
    rw [if_pos ⟨h.view _ hb a, Nat.le_refl _⟩]
    rfl
  | write a v next =>
    refine ⟨(t % G, 0), Option.isSome_iff_exists.mp ?_⟩
    rw [hstep]
    dsimp only
    rw [hrest]
    rfl
  | await p next =>
    have hs := hworking.safe
    rw [hrest, htask] at hs
    cases hflag : s.flag p with
    | none => exact absurd ⟨hs.1.trans htn, hflag⟩ (hleast p hs.1)
    | some view =>
      refine ⟨(t % G, 0), Option.isSome_iff_exists.mp ?_⟩
      rw [hstep]
      dsimp only
      rw [hrest]
      dsimp only
      rw [hflag]
      rfl
  | note l next =>
    refine ⟨(t % G, 0), Option.isSome_iff_exists.mp ?_⟩
    rw [hstep]
    dsimp only
    rw [hrest]
    rfl

/-- At the end the latest write of every address is what the tasks leave in order. -/
theorem Inv.finished (hG : 0 < G) (h : Inv n G prog first F φ s W alone) (hrun : Finished n G s) (a : A) :
    s.hist a (s.latest a) = memory prog first n a := by
  refine (h.frontier a n (Nat.le_refl n) ⟨fun p hp _ hnone => ?_, fun p hle hlt _ => by omega, fun b hb ht => ?_⟩).1
  · have hle := (h.flags p hp).mp hnone
    have := hrun (p % G) (Nat.mod_lt p hG)
    omega
  · exact absurd (hrun b hb) (Nat.not_le.mpr ht)

end Proofs

end NssFactory.Tasks
