import Mathlib.Data.List.Basic
import Mathlib.Logic.Function.Basic
import NssFactory.Lib.Areas

/-!
# Programs with a bump allocator

A program takes regions of a scratch buffer one after another (`Bump`), and reads and writes
matrices there and in other buffers (`Place`). It stops at its first error and leaves the state it
had then (`Run`).

`Runs` and `Stops` say how a program ends from one state, with a rule for each way of putting
programs together; `Keeps` is about all its ends.
-/

namespace NssFactory.Scratch

open Areas

/-! ## The allocator -/

/-- How much of the buffer is in use, and the regions that were taken: start and length. -/
structure Bump where
  used : Nat
  cap : Nat
  taken : List (Nat × Nat)

namespace Bump

/-- The next `k` elements. -/
def take (k : Nat) (b : Bump) : Option Nat × Bump :=
  if k = 0 then (some b.used, b)
  else if b.cap < b.used + k then (none, b)
  else (some b.used, { b with used := b.used + k, taken := (b.used, k) :: b.taken })

/-- Several regions, whether or not there was room for the ones before. -/
def takes : List Nat → Bump → List (Option Nat) × Bump
  | [], b => ([], b)
  | k :: ks, b => ((b.take k).1 :: (takes ks (b.take k).2).1, (takes ks (b.take k).2).2)

/-- The regions of a buffer of that size lie in what is in use, and none meets another. -/
structure Sound (b : Bump) (size : Nat) : Prop where
  cap : b.cap = size
  used : b.used ≤ size
  inside : ∀ t ∈ b.taken, t.1 + t.2 ≤ b.used
  apart : b.taken.Pairwise fun s t => s.1 + s.2 ≤ t.1 ∨ t.1 + t.2 ≤ s.1

variable {b : Bump} {k size : Nat} {ks : List Nat}

theorem take_sound (h : b.Sound size) : (b.take k).2.Sound size := by
  unfold take
  split
  · exact h
  · split
    · exact h
    · have := h.cap
      refine ⟨h.cap, by dsimp only; omega, fun t ht => ?_, List.pairwise_cons.mpr ⟨fun t ht => ?_, h.apart⟩⟩
      · dsimp only at ht ⊢
        cases List.mem_cons.mp ht with
        | inl heq => rw [heq]
        | inr hmem =>
          have := h.inside t hmem
          omega
      · exact .inr (h.inside t ht)

theorem takes_sound (h : b.Sound size) : (takes ks b).2.Sound size := by
  induction ks generalizing b with
  | nil => exact h
  | cons k ks ih => exact ih (take_sound h)

/-- Where regions of these sizes start. -/
def offsets : Nat → List Nat → List Nat
  | _, [] => []
  | used, k :: ks => used :: offsets (used + k) ks

theorem take_fits (h : b.used + k ≤ b.cap) :
    (b.take k).1 = some b.used ∧ (b.take k).2.used = b.used + k ∧ (b.take k).2.cap = b.cap := by
  unfold take
  split
  · rename_i hk
    rw [hk]
    exact ⟨rfl, rfl, rfl⟩
  · rw [if_neg (by omega)]
    exact ⟨rfl, rfl, rfl⟩

theorem takes_fits (h : b.used + ks.sum ≤ b.cap) : (takes ks b).1 = (offsets b.used ks).map some ∧
    (takes ks b).2.used = b.used + ks.sum ∧ (takes ks b).2.cap = b.cap := by
  induction ks generalizing b with
  | nil => exact ⟨rfl, rfl, rfl⟩
  | cons k ks ih =>
    rw [List.sum_cons] at h ⊢
    obtain ⟨hstart, hused, hcap⟩ := take_fits (b := b) (k := k) (by omega)
    obtain ⟨hstarts, husedAll, hcapAll⟩ := ih (b := (b.take k).2) (by omega)
    refine ⟨?_, ?_, hcapAll.trans hcap⟩
    · rw [takes, hstart, hstarts, hused]
      rfl
    · rw [takes, husedAll]
      omega

/-- Without room for all of them one is missing. -/
theorem takes_short (hused : b.used ≤ b.cap) (h : b.cap < b.used + ks.sum) : none ∈ (takes ks b).1 := by
  induction ks generalizing b with
  | nil =>
    rw [List.sum_nil] at h
    omega
  | cons k ks ih =>
    rw [List.sum_cons] at h
    by_cases hfits : b.used + k ≤ b.cap
    · obtain ⟨-, hused', hcap⟩ := take_fits hfits
      exact List.mem_cons_of_mem _ (ih (by omega) (by omega))
    · have hnone : (b.take k).1 = none := by
        unfold take
        rw [if_neg (by omega), if_pos (by omega)]
      rw [takes, hnone]
      exact List.mem_cons_self

end Bump

/-! ## Programs -/

section Programs

variable {σ ε α β γ : Type}

/-- A program with an error or a value, and the state after it. -/
def Run (σ ε α : Type) := σ → Except ε α × σ

namespace Run

def fail (e : ε) : Run σ ε α := fun s => (.error e, s)

instance : Monad (Run σ ε) where
  pure a s := (.ok a, s)
  bind x f s := match x s with
    | (.ok a, s') => f a s'
    | (.error e, s') => (.error e, s')

end Run

def Runs (x : Run σ ε α) (s : σ) (a : α) (s' : σ) : Prop := x s = (.ok a, s')

def Stops (x : Run σ ε α) (s : σ) (e : ε) : Prop := (x s).1 = .error e

def Keeps (P : σ → Prop) (x : Run σ ε α) : Prop := ∀ s, P s → P (x s).2

variable {x : Run σ ε α} {f : α → Run σ ε β} {s s' s'' : σ} {a : α} {b : β} {e : ε} {P : σ → Prop}

theorem Runs.pure : Runs (Pure.pure a : Run σ ε α) s a s := rfl

theorem Runs.bind (h : Runs x s a s') (h' : Runs (f a) s' b s'') : Runs (x >>= f) s b s'' := by
  have hbind : (x >>= f) s = match x s with
    | (.ok a, s') => f a s'
    | (.error e, s') => (.error e, s') := rfl
  rw [Runs, hbind, h]
  exact h'

theorem Stops.fail : Stops (Run.fail e : Run σ ε α) s e := rfl

theorem Runs.stops (h : Runs x s a s') (h' : Stops (f a) s' e) : Stops (x >>= f) s e := by
  have hbind : (x >>= f) s = match x s with
    | (.ok a, s') => f a s'
    | (.error e, s') => (.error e, s') := rfl
  rw [Stops, hbind, h]
  exact h'

theorem Stops.bind (h : Stops x s e) : Stops (x >>= f) s e := by
  have hbind : (x >>= f) s = match x s with
    | (.ok a, s') => f a s'
    | (.error e, s') => (.error e, s') := rfl
  rw [Stops, hbind]
  unfold Stops at h
  cases hx : x s with
  | mk r t =>
    rw [hx] at h
    dsimp only at h
    rw [h]

theorem Keeps.pure : Keeps P (Pure.pure a : Run σ ε α) := fun _ h => h

theorem Keeps.fail : Keeps P (Run.fail e : Run σ ε α) := fun _ h => h

theorem Keeps.bind (h : Keeps P x) (h' : ∀ a, Keeps P (f a)) : Keeps P (x >>= f) := by
  intro s hs
  have hbind : (x >>= f) s = match x s with
    | (.ok a, s') => f a s'
    | (.error e, s') => (.error e, s') := rfl
  have hx := h s hs
  rw [hbind]
  cases hrun : x s with
  | mk r t =>
    rw [hrun] at hx
    cases r with
    | ok a => exact h' a t hx
    | error e => exact hx

/-- A loop whose rounds each make one more step of a fold true. -/
theorem Runs.forM (round : α → Run σ ε PUnit) (step : γ → α → γ) {Q : γ → σ → Prop} {l : List α}
    (h : ∀ c s, ∀ y ∈ l, Q c s → ∃ s', Runs (round y) s ⟨⟩ s' ∧ Q (step c y) s') {c : γ} (hs : Q c s) :
    ∃ s', Runs (l.forM round) s ⟨⟩ s' ∧ Q (l.foldl step c) s' := by
  induction l generalizing c s with
  | nil => exact ⟨s, rfl, hs⟩
  | cons y l ih =>
    obtain ⟨s₁, hround, h₁⟩ := h c s y List.mem_cons_self hs
    obtain ⟨s', hrest, h'⟩ := ih (fun c s z hz => h c s z (List.mem_cons_of_mem _ hz)) h₁
    exact ⟨s', hround.bind hrest, h'⟩

theorem Keeps.forM {round : α → Run σ ε PUnit} (h : ∀ y, Keeps P (round y)) (l : List α) :
    Keeps P (l.forM round) := by
  induction l with
  | nil => exact Keeps.pure
  | cons y l ih => exact (h y).bind fun _ => ih

end Programs

/-! ## Matrices in buffers -/

/-- A matrix of a buffer, and what it is there for. -/
structure Place (B U : Type) where
  buffer : B
  use : U
  area : Area

/-- The allocator, and what the buffers hold. -/
structure State (B U F : Type) where
  bump : Bump
  mem : B → Areas.Memory U F

section Matrices

variable {B U F ε : Type} (size : B → Nat) (z : F) (stray : ε)

def taking (ks : List Nat) : Run (State B U F) ε (List (Option Nat)) :=
  fun s => (.ok (s.bump.takes ks).1, { s with bump := (s.bump.takes ks).2 })

def read [DecidableEq U] (p : Place B U) : Run (State B U F) ε (Nat → Nat → F) := fun s =>
  match Areas.load (size p.buffer) z (s.mem p.buffer) p.use p.area with
  | some f => (.ok f, s)
  | none => (.error stray, s)

def write [DecidableEq B] (p : Place B U) (f : Nat → Nat → F) : Run (State B U F) ε Unit := fun s =>
  match Areas.store (size p.buffer) (s.mem p.buffer) p.use p.area f with
  | some m => (.ok (), { s with mem := Function.update s.mem p.buffer m })
  | none => (.error stray, s)

def Place.Apart (p q : Place B U) : Prop :=
  p.buffer = q.buffer → p.area.stop ≤ q.area.base ∨ q.area.stop ≤ p.area.base

theorem Place.Apart.symm {p q : Place B U} (h : p.Apart q) : q.Apart p := fun hbuffer => (h hbuffer.symm).symm

/-- A matrix of that size, inside its buffer. -/
structure Place.Sized (p : Place B U) (rows cols : Nat) : Prop where
  ld : p.area.rows ≤ p.area.ld
  stop : p.area.stop ≤ size p.buffer
  rows : p.area.rows = rows
  cols : p.area.cols = cols

def There (s : State B U F) (p : Place B U) (f : Nat → Nat → F) : Prop := Holds (s.mem p.buffer) p.use p.area f

variable {size z stray} {s s' : State B U F} {p q : Place B U} {f g : Nat → Nat → F} {ks : List Nat}

theorem taking_fits {e : Type} (ks : List Nat) (h : s.bump.used + ks.sum ≤ s.bump.cap) :
    ∃ s', Runs (taking ks : Run (State B U F) e _) s ((Bump.offsets s.bump.used ks).map some) s' ∧
      s'.mem = s.mem ∧ s'.bump.used = s.bump.used + ks.sum ∧ s'.bump.cap = s.bump.cap := by
  obtain ⟨hstarts, hused, hcap⟩ := Bump.takes_fits h
  exact ⟨_, congrArg (fun l => (Except.ok l, _)) hstarts, rfl, hused, hcap⟩

theorem taking_short {e : Type} (ks : List Nat) (hused : s.bump.used ≤ s.bump.cap)
    (h : s.bump.cap < s.bump.used + ks.sum) :
    ∃ l s', Runs (taking ks : Run (State B U F) e _) s l s' ∧ none ∈ l :=
  ⟨_, _, rfl, Bump.takes_short hused h⟩

theorem taking_sound {c : Nat} : Keeps (fun s => s.bump.Sound c) (taking ks : Run (State B U F) ε _) :=
  fun _ h => Bump.takes_sound h

theorem read_runs [DecidableEq U] {rows cols : Nat} (h : There s p f) (hp : p.Sized size rows cols) :
    Runs (read size z stray p) s (block z rows cols f) s := by
  rw [Runs, read, h.load_eq hp.ld hp.stop, hp.rows, hp.cols]

theorem read_keeps [DecidableEq U] {P : State B U F → Prop} : Keeps P (read size z stray p) := by
  intro s h
  unfold read
  split
  · exact h
  · exact h

theorem write_keeps [DecidableEq B] {c : Nat} : Keeps (fun s => s.bump.Sound c) (write size stray p f) := by
  intro s h
  unfold write
  split
  · exact h
  · exact h

/-- What a write changes. -/
structure Wrote (s s' : State B U F) (p : Place B U) (f : Nat → Nat → F) : Prop where
  bump : s'.bump = s.bump
  other : ∀ c ≠ p.buffer, s'.mem c = s.mem c
  own : s'.mem p.buffer = fun x => if p.area.Owns x then
    some (p.use, f ((x - p.area.base) % p.area.ld) ((x - p.area.base) / p.area.ld)) else s.mem p.buffer x

theorem write_runs [DecidableEq B] (stray : ε) {rows cols : Nat} (hp : p.Sized size rows cols) (f : Nat → Nat → F) :
    ∃ s', Runs (write size stray p f) s () s' ∧ Wrote s s' p f := by
  have hin : ∀ j < p.area.cols, ∀ i < p.area.rows, p.area.address i j < size p.buffer := fun j hj i hi =>
    (Area.address_lt hp.ld hi hj).trans_le hp.stop
  have hstore : Areas.store (size p.buffer) (s.mem p.buffer) p.use p.area f = some fun x => if p.area.Owns x then
      some (p.use, f ((x - p.area.base) % p.area.ld) ((x - p.area.base) / p.area.ld)) else s.mem p.buffer x :=
    if_pos hin
  refine ⟨{ s with mem := Function.update s.mem p.buffer _ }, ?_, rfl, fun c hc => Function.update_of_ne hc _ _,
    Function.update_self _ _ _⟩
  rw [Runs, write, hstore]

theorem Wrote.there (h : Wrote s s' p f) (hp : p.area.rows ≤ p.area.ld) : There s' p f := by
  intro i hi j hj
  obtain ⟨howns, hdiv, hmod⟩ := Area.owns_address hp hi hj
  rw [h.own]
  dsimp only
  rw [if_pos howns, hdiv, hmod]

theorem Wrote.apart (h : Wrote s s' p f) (hp : p.area.rows ≤ p.area.ld) (hq : q.area.rows ≤ q.area.ld)
    (hapart : q.Apart p) (hthere : There s q g) : There s' q g := by
  by_cases hbuffer : q.buffer = p.buffer
  · refine Holds.apart hthere hq (fun x hx => ?_) (hapart hbuffer)
    rw [hbuffer, h.own]
    refine if_neg fun howns => ?_
    have := howns.lt_stop hp
    have := howns.1
    omega
  · rw [There, h.other _ hbuffer]
    exact hthere

/-- A write to the first rows and columns of a matrix. -/
theorem Wrote.corner (h : Wrote s s' p f) (hq : q.area.rows ≤ q.area.ld) (hbuffer : q.buffer = p.buffer)
    (huse : q.use = p.use) (hbase : q.area.base = p.area.base) (hld : q.area.ld = p.area.ld)
    (hthere : There s q g) :
    There s' q fun i j => if i < p.area.rows ∧ j < p.area.cols then f i j else g i j := by
  intro i hi j hj
  obtain ⟨-, hdiv, hmod⟩ := Area.owns_address hq hi hj
  rw [hbase, hld] at hdiv hmod
  have hle : p.area.base ≤ q.area.address i j := hbase ▸ Area.base_le_address
  rw [hbuffer, h.own]
  dsimp only
  by_cases hin : i < p.area.rows ∧ j < p.area.cols
  · rw [if_pos ⟨hle, hdiv.symm ▸ hin.2, hmod.symm ▸ hin.1⟩, if_pos hin, hdiv, hmod, huse]
  · rw [if_neg fun howns => hin ⟨hmod ▸ howns.2.2, hdiv ▸ howns.2.1⟩, if_neg hin, ← hbuffer]
    exact hthere i hi j hj

end Matrices

end NssFactory.Scratch
