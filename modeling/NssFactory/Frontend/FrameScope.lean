import NssFactory.Lib.Ledger
import NssFactory.Lib.Steps
import Mathlib.Data.List.Perm.Basic
import Mathlib.Logic.Function.Basic

/-!
# The frames of a callback

`FrameScope` of `frontend/ownership.hpp`: the references that a callback takes, the bytes it
charges for them, and the copies of planes whose stride the kernels do not accept. An address
names whatever frame is there now; `world` says which.

What the surroundings decide is part of a call: the frame that VapourSynth hands out, whether
the account refuses its bytes, whether a vector or a property set finds no memory. `taken`,
`freed` and `handed` record the references that came and went. `changed` is a step of the
surroundings: another frame comes to an address, or somebody writes the one that is there.
-/

namespace NssFactory.FrameScope

open Ledger

inductive Thrown
  | badAlloc
  | badArrayNewLength
  | overflowError (what : String)
  | invalidArgument (what : String)

def sizeMax : Nat := 2 ^ 64 - 1

/-- A signed value as `size_t`. -/
def toSize (n : Int) : Nat := (n % 2 ^ 64).toNat

def checkedAdd (a b : Nat) : Except Thrown Nat :=
  if sizeMax - a < b then .error .badArrayNewLength else .ok (a + b)

def checkedMul (a b : Nat) : Except Thrown Nat :=
  if a ≠ 0 ∧ sizeMax / a < b then .error .badArrayNewLength else .ok (a * b)

def checkedInt (n : Nat) : Except Thrown Nat :=
  if 2 ^ 31 - 1 < n then .error (.overflowError "nss: size exceeds the kernel integer range") else .ok n

/-! ## Frames -/

/-- What VapourSynth says of a plane; the stride counts bytes. -/
structure Plane (α : Type) where
  stride : Int
  height : Int
  width : Int
  samples : Nat → α

structure Frame (α : Type) where
  numPlanes : Nat
  plane : Nat → Plane α

/-- `getStride`. -/
def Plane.getStride {α : Type} (p : Plane α) : Except Thrown Int :=
  if p.stride ≤ 0 ∨ p.stride % 4 ≠ 0 ∨ p.height < 1 ∨ p.width < 1 ∨ p.stride / 4 < p.width then
    .error (.invalidArgument "nss: invalid float frame stride")
  else do
    let _ ← checkedInt (← checkedMul (toSize (p.stride / 4)) (toSize p.height))
    .ok p.stride

/-- The bytes `hold` charges for a frame. -/
def Frame.bytes {α : Type} (f : Frame α) : Except Thrown Nat :=
  (List.range f.numPlanes).foldlM (fun bytes p => do
    checkedAdd bytes (← checkedMul (toSize (f.plane p).stride) (toSize (f.plane p).height))) 0

/-! ## The scope -/

structure Entry where
  frame : Nat
  bytes : Nat
  output : Bool
  deriving DecidableEq

structure Mirror (α : Type) where
  frame : Nat
  plane : Nat
  stride : Int
  pixels : Nat → Option α

structure Sys (α : Type) where
  world : Nat → Frame α
  /-- The two accounts exist: the scope was made under a budget. -/
  accounted : Bool
  outputs : Nat
  framework : Nat
  inline : List (Option Entry)
  spill : List (Option Entry)
  mirrors : List (Mirror α)
  taken : List Nat
  freed : List Nat
  handed : List Nat

/-- The first free slot takes the entry. -/
def place (e : Entry) : List (Option Entry) → Option (List (Option Entry))
  | [] => none
  | none :: slots => some (some e :: slots)
  | some x :: slots => (place e slots).map (some x :: ·)

/-- The first entry of a frame leaves its slot. -/
def drop (frame : Nat) : List (Option Entry) → Option (Entry × List (Option Entry))
  | [] => none
  | none :: slots => (drop frame slots).map fun r => (r.1, none :: r.2)
  | some e :: slots =>
    if e.frame = frame then some (e, none :: slots)
    else (drop frame slots).map fun r => (r.1, some e :: r.2)

namespace Sys

variable {α : Type}

def init (accounted : Bool) (world : Nat → Frame α) : Sys α where
  world := world
  accounted := accounted
  outputs := 0
  framework := 0
  inline := List.replicate 128 none
  spill := []
  mirrors := []
  taken := []
  freed := []
  handed := []

variable (s : Sys α)

def entries : List Entry := (s.inline ++ s.spill).filterMap id

def charge (e : Entry) : Sys α :=
  if !s.accounted then s
  else if e.output then { s with outputs := s.outputs + e.bytes }
  else { s with framework := s.framework + e.bytes }

def uncharge (e : Entry) : Sys α :=
  if !s.accounted then s
  else if e.output then { s with outputs := s.outputs - e.bytes }
  else { s with framework := s.framework - e.bytes }

/-- The entry of a frame, if its size is one and the account takes it. -/
def entryFor (frame : Nat) (output : Bool) (refused : Option Thrown) : Except Thrown Entry :=
  if !s.accounted then .ok ⟨frame, 0, output⟩
  else do
    let bytes ← (s.world frame).bytes
    match refused with
    | some e => .error e
    | none => .ok ⟨frame, bytes, output⟩

def insert (e : Entry) (noMemory : Bool) : Except Thrown (Sys α) :=
  match place e s.inline with
  | some slots => .ok { s with inline := slots }
  | none =>
    match place e s.spill with
    | some slots => .ok { s with spill := slots }
    | none => if noMemory then .error .badAlloc else .ok { s with spill := s.spill ++ [some e] }

def free (frame : Nat) : Sys α := { s with freed := frame :: s.freed }

/-- The body of `hold`, once there is a frame. -/
def enter (f : Nat) (output : Bool) (refused : Option Thrown) (noMemory : Bool) : Except Thrown Nat × Sys α :=
  match s.entryFor f output refused with
  | .error e => (.error e, s.free f)
  | .ok entry =>
    match (s.charge entry).insert entry noMemory with
    | .error e => (.error e, ((s.charge entry).uncharge entry).free f)
    | .ok s => (.ok f, s)

/-- `hold` of what VapourSynth handed out. -/
def hold (frame : Option Nat) (output : Bool) (refused : Option Thrown) (noMemory : Bool) :
    Except Thrown Nat × Sys α :=
  match frame with
  | none => (.error .badAlloc, s)
  | some f => { s with taken := f :: s.taken }.enter f output refused noMemory

/-- `newVideoFrame`; a size that is no `int` throws before VapourSynth is asked. -/
def newVideoFrame (w h : Int) (frame : Option Nat) (refused : Option Thrown) (noMemory : Bool) :
    Except Thrown Nat × Sys α :=
  match checkedMul (toSize w) (toSize h) >>= checkedInt with
  | .error e => (.error e, s)
  | .ok _ => s.hold frame true refused noMemory

def forget (frame : Nat) : Sys α :=
  match drop frame s.inline with
  | some (e, slots) => { s.uncharge e with inline := slots }
  | none =>
    match drop frame s.spill with
    | some (e, slots) => { s.uncharge e with spill := slots }
    | none => s

def freeFrame (frame : Option Nat) : Sys α :=
  match frame with
  | none => s
  | some f => (s.forget f).free f

/-- `releaseFrame`: somebody else owns the reference now. -/
def releaseFrame (frame : Nat) : Sys α :=
  let s := s.forget frame
  { s with handed := frame :: s.handed }

/-- `keep`; under a budget the statistics are written to the frame first, which may fail. -/
def keep (frame : Nat) (budget failed : Bool) : Except Thrown Nat × Sys α :=
  if budget && failed then (.error .badAlloc, s)
  else (.ok frame, s.releaseFrame frame)

/-- The copy of a plane: every row moved to the stride asked for. -/
def copy [Zero α] (p : Plane α) (actual stride : Int) (i : Nat) : Option α :=
  if i < (stride * p.height).toNat then
    if i % stride.toNat < p.width.toNat then some (p.samples (i / stride.toNat * actual.toNat + i % stride.toNat))
    else some 0
  else none

/-- `readPlane`: what the pointer it returns points to. -/
def readPlane [Zero α] (frame plane : Nat) (stride : Int) (noMemory : Bool) :
    Except Thrown (Nat → Option α) × Sys α :=
  let p := (s.world frame).plane plane
  match p.getStride with
  | .error e => (.error e, s)
  | .ok bytes =>
    let actual := bytes / 4
    if actual = stride then (.ok fun i => some (p.samples i), s)
    else if stride < p.width then (.error (.invalidArgument "nss: incompatible plane stride"), s)
    else
      match s.mirrors.find? fun m => m.frame = frame ∧ m.plane = plane ∧ m.stride = stride with
      | some m => (.ok m.pixels, s)
      | none =>
        if noMemory then (.error .badAlloc, s)
        else
          let pixels := copy p actual stride
          (.ok pixels, { s with mirrors := s.mirrors ++ [⟨frame, plane, stride, pixels⟩] })

/-- One slot of the destructor. -/
def close (slot : Option Entry) : Sys α :=
  match slot with
  | none => s
  | some e => (s.uncharge e).free e.frame

/-- The destructor. -/
def destroy : Sys α := { (s.inline ++ s.spill).foldl close s with inline := [], spill := [] }

end Sys

inductive Call (α : Type)
  | getFrameFilter (frame : Option Nat) (refused : Option Thrown) (noMemory : Bool)
  | adoptInput (frame : Option Nat) (refused : Option Thrown) (noMemory : Bool)
  | newVideoFrame (w h : Int) (frame : Option Nat) (refused : Option Thrown) (noMemory : Bool)
  | adoptOutput (frame : Option Nat) (refused : Option Thrown) (noMemory : Bool)
  | freeFrame (frame : Option Nat)
  | releaseFrame (frame : Nat)
  | keep (frame : Nat) (budget failed : Bool)
  | readPlane (frame plane : Nat) (stride : Int) (noMemory : Bool)
  | changed (frame : Nat) (now : Frame α)

variable {α : Type} [Zero α]

/-- The state after a call, whether it returned or threw. -/
def Sys.perform (s : Sys α) : Call α → Sys α
  | .getFrameFilter frame refused noMemory => (s.hold frame false refused noMemory).2
  | .adoptInput frame refused noMemory => (s.hold frame false refused noMemory).2
  | .newVideoFrame w h frame refused noMemory => (s.newVideoFrame w h frame refused noMemory).2
  | .adoptOutput frame refused noMemory => (s.hold frame true refused noMemory).2
  | .freeFrame frame => s.freeFrame frame
  | .releaseFrame frame => s.releaseFrame frame
  | .keep frame budget failed => (s.keep frame budget failed).2
  | .readPlane frame plane stride noMemory => (s.readPlane frame plane stride noMemory).2
  | .changed frame now => { s with world := Function.update s.world frame now }

/-! ## What is promised -/

/-- The references of the scope: everything it took was freed once, was handed out, or is held in one
of `entries`; and its accounts hold what these were charged. -/
structure Balanced (s : Sys α) (entries : List Entry) : Prop where
  owned : s.taken.Perm (s.freed ++ s.handed ++ entries.map Entry.frame)
  outputs : s.outputs = total Entry.bytes (fun e => e.output = true) entries
  framework : s.framework = total Entry.bytes (fun e => e.output = false) entries
  uncharged : s.accounted = false → ∀ e ∈ entries, e.bytes = 0

/-- A buffer shows the rows of a plane at a stride. -/
def Shows (p : Plane α) (stride : Int) (buffer : Nat → Option α) : Prop :=
  ∀ row col : Nat, (row : Int) < p.height → (col : Int) < p.width →
    buffer (row * stride.toNat + col) = some (p.samples (row * (p.stride / 4).toNat + col))

/-- Every copy is one of the plane that is there now. -/
def Fresh (s : Sys α) : Prop :=
  ∀ m ∈ s.mirrors, m.pixels =
    Sys.copy ((s.world m.frame).plane m.plane) (((s.world m.frame).plane m.plane).stride / 4) m.stride

/-- Only frames that the scope holds are freed, released or kept. -/
def Holds (s : Sys α) : Call α → Prop
  | .freeFrame (some frame) => ∃ e ∈ s.entries, e.frame = frame
  | .releaseFrame frame => ∃ e ∈ s.entries, e.frame = frame
  | .keep frame _ _ => ∃ e ∈ s.entries, e.frame = frame
  | _ => True

/-- A plane that was copied stays as it is: no other frame comes to its address, and nobody writes it. -/
def Settled (s : Sys α) : Call α → Prop
  | .changed frame now => ∀ m ∈ s.mirrors, m.frame = frame → now.plane m.plane = (s.world frame).plane m.plane
  | _ => True

/-- A call of a callback that owns what it gives back. -/
def Owning (s : Sys α) (c : Call α) (s' : Sys α) : Prop := Holds s c ∧ s' = s.perform c

def Step (s : Sys α) (c : Call α) (s' : Sys α) : Prop := Owning s c s' ∧ Settled s c

/-! ## Slots -/

section Slots

variable {e : Entry} {frame : Nat} {slots slots' : List (Option Entry)}

omit [Zero α] in
theorem place_perm (h : place e slots = some slots') :
    (slots'.filterMap id).Perm (e :: slots.filterMap id) := by
  induction slots generalizing slots' with
  | nil => cases h
  | cons slot slots ih =>
    cases slot with
    | none =>
      cases h
      exact List.Perm.refl _
    | some x =>
      obtain ⟨rest, hrest, rfl⟩ := Option.map_eq_some_iff.mp h
      exact ((ih hrest).cons x).trans (List.Perm.swap e x _)

theorem drop_perm (h : drop frame slots = some (e, slots')) :
    e.frame = frame ∧ (slots.filterMap id).Perm (e :: slots'.filterMap id) := by
  induction slots generalizing slots' with
  | nil => cases h
  | cons slot slots ih =>
    cases slot with
    | none =>
      obtain ⟨⟨x, rest⟩, hrest, hr⟩ := Option.map_eq_some_iff.mp h
      cases hr
      obtain ⟨hframe, hperm⟩ := ih hrest
      exact ⟨hframe, hperm⟩
    | some x =>
      rw [drop] at h
      split_ifs at h with hx
      · cases h
        exact ⟨hx, List.Perm.refl _⟩
      · obtain ⟨⟨y, rest⟩, hrest, hr⟩ := Option.map_eq_some_iff.mp h
        cases hr
        obtain ⟨hframe, hperm⟩ := ih hrest
        exact ⟨hframe, (hperm.cons x).trans (List.Perm.swap y x _)⟩

theorem drop_none (h : drop frame slots = none) : ∀ x ∈ slots.filterMap id, Entry.frame x ≠ frame := by
  induction slots with
  | nil => exact fun x hx => absurd hx List.not_mem_nil
  | cons slot slots ih =>
    cases slot with
    | none => exact ih (Option.map_eq_none_iff.mp h)
    | some y =>
      rw [drop] at h
      split_ifs at h with hy
      intro x hx
      rcases List.mem_cons.mp hx with hxy | hx
      · exact hxy ▸ hy
      · exact ih (Option.map_eq_none_iff.mp h) x hx

end Slots

/-! ## References and charges -/

section References

variable {s s' : Sys α} {e : Entry} {entries entries' : List Entry} {frame : Nat}

omit [Zero α] in
theorem Balanced.perm (h : Balanced s entries) (hperm : entries.Perm entries') : Balanced s entries' where
  owned := h.owned.trans ((hperm.map _).append_left _)
  outputs := h.outputs.trans (total_perm hperm)
  framework := h.framework.trans (total_perm hperm)
  uncharged hacc e he := h.uncharged hacc e (hperm.mem_iff.mpr he)

omit [Zero α] in
/-- An entry gives its charge back; its reference is still to go. -/
theorem Balanced.uncharge (h : Balanced s (e :: entries)) :
    (s.uncharge e).outputs = total Entry.bytes (fun e => e.output = true) entries ∧
      (s.uncharge e).framework = total Entry.bytes (fun e => e.output = false) entries := by
  have hout := h.outputs
  have hframe := h.framework
  rw [total_cons] at hout hframe
  rw [Sys.uncharge]
  cases hacc : s.accounted with
  | false =>
    have hbytes := h.uncharged hacc e List.mem_cons_self
    simp only [hbytes, ite_self, Nat.zero_add] at hout hframe
    exact ⟨hout, hframe⟩
  | true =>
    cases hoe : e.output with
    | false =>
      simp only [hoe, Bool.false_eq_true, if_false, if_true, Nat.zero_add] at hout hframe
      simp only [Bool.not_true, Bool.false_eq_true, if_false]
      exact ⟨hout, by omega⟩
    | true =>
      simp only [hoe, Bool.true_eq_false, if_false, if_true, Nat.zero_add] at hout hframe
      simp only [Bool.not_true, Bool.false_eq_true, if_false, if_true]
      exact ⟨by omega, hframe⟩

omit [Zero α] in
theorem charge_counts (hout : s.outputs = total Entry.bytes (fun e => e.output = true) entries)
    (hframework : s.framework = total Entry.bytes (fun e => e.output = false) entries)
    (hbytes : s.accounted = false → e.bytes = 0) :
    (s.charge e).outputs = total Entry.bytes (fun e => e.output = true) (e :: entries) ∧
      (s.charge e).framework = total Entry.bytes (fun e => e.output = false) (e :: entries) := by
  rw [Sys.charge, total_cons, total_cons, ← hout, ← hframework]
  cases hacc : s.accounted with
  | false => simp [hbytes hacc]
  | true =>
    cases hoe : e.output with
    | false => simp [Nat.add_comm]
    | true => simp [Nat.add_comm]

/-- What a charge leaves as it was. -/
structure Rest (s s' : Sys α) : Prop where
  world : s'.world = s.world
  accounted : s'.accounted = s.accounted
  inline : s'.inline = s.inline
  spill : s'.spill = s.spill
  mirrors : s'.mirrors = s.mirrors
  taken : s'.taken = s.taken
  freed : s'.freed = s.freed
  handed : s'.handed = s.handed

omit [Zero α] in
theorem charge_rest (s : Sys α) (e : Entry) : Rest s (s.charge e) := by
  rw [Sys.charge]
  split_ifs <;> exact ⟨rfl, rfl, rfl, rfl, rfl, rfl, rfl, rfl⟩

omit [Zero α] in
theorem uncharge_rest (s : Sys α) (e : Entry) : Rest s (s.uncharge e) := by
  rw [Sys.uncharge]
  split_ifs <;> exact ⟨rfl, rfl, rfl, rfl, rfl, rfl, rfl, rfl⟩

omit [Zero α] in
theorem uncharge_charge (s : Sys α) (e : Entry) : (s.charge e).uncharge e = s := by
  obtain ⟨world, accounted, outputs, framework, inline, spill, mirrors, taken, freed, handed⟩ := s
  cases accounted with
  | false => rfl
  | true =>
    cases hoe : e.output with
    | false => simp [Sys.charge, Sys.uncharge, hoe]
    | true => simp [Sys.charge, Sys.uncharge, hoe]

omit [Zero α] in
/-- A held reference goes back to VapourSynth. -/
theorem Balanced.free (h : Balanced s (e :: entries)) : Balanced ((s.uncharge e).free e.frame) entries := by
  have hrest := uncharge_rest s e
  refine ⟨?_, h.uncharge.1, h.uncharge.2, fun hacc x hx => ?_⟩
  · show (s.uncharge e).taken.Perm (e.frame :: (s.uncharge e).freed ++ (s.uncharge e).handed ++ _)
    rw [hrest.taken, hrest.freed, hrest.handed]
    exact h.owned.trans List.perm_middle
  · exact h.uncharged (hrest.accounted.symm.trans hacc) x (List.mem_cons_of_mem _ hx)

omit [Zero α] in
/-- A held reference goes to somebody else. -/
theorem Balanced.hand (h : Balanced s (e :: entries)) (hframe : e.frame = frame) (hs : s'.taken = s.taken)
    (hfreed : s'.freed = s.freed) (hhanded : s'.handed = frame :: s.handed)
    (hacc : s'.accounted = s.accounted) (hout : s'.outputs = (s.uncharge e).outputs)
    (hframework : s'.framework = (s.uncharge e).framework) : Balanced s' entries := by
  refine ⟨?_, hout.trans h.uncharge.1, hframework.trans h.uncharge.2, fun hfalse x hx => ?_⟩
  · rw [hs, hfreed, hhanded, ← hframe]
    refine h.owned.trans (List.perm_middle.trans ?_)
    exact List.Perm.append_right _ List.perm_middle.symm
  · exact h.uncharged (hacc.symm.trans hfalse) x (List.mem_cons_of_mem _ hx)

/-! ## The calls -/

omit [Zero α] in
theorem Balanced.congr (h : Balanced s entries) (hs : s'.taken = s.taken) (hfreed : s'.freed = s.freed)
    (hhanded : s'.handed = s.handed) (hout : s'.outputs = s.outputs) (hframework : s'.framework = s.framework)
    (hacc : s'.accounted = s.accounted) : Balanced s' entries :=
  ⟨by rw [hs, hfreed, hhanded]; exact h.owned, hout.trans h.outputs, hframework.trans h.framework,
    fun hfalse => h.uncharged (hacc.symm.trans hfalse)⟩

omit [Zero α] in
theorem entryFor_ok {output : Bool} {refused : Option Thrown} (h : s.entryFor frame output refused = .ok e) :
    e.frame = frame ∧ (s.accounted = false → e.bytes = 0) := by
  rw [Sys.entryFor] at h
  cases hacc : s.accounted with
  | false =>
    rw [hacc] at h
    cases h
    exact ⟨rfl, fun _ => rfl⟩
  | true =>
    rw [hacc] at h
    cases hbytes : (s.world frame).bytes with
    | error thrown =>
      rw [hbytes] at h
      cases h
    | ok bytes =>
      rw [hbytes] at h
      cases refused with
      | none =>
        cases h
        exact ⟨rfl, nofun⟩
      | some thrown => cases h

omit [Zero α] in
theorem insert_ok {noMemory : Bool} (h : s.insert e noMemory = .ok s') :
    s'.entries.Perm (e :: s.entries) ∧ s'.taken = s.taken ∧ s'.freed = s.freed ∧ s'.handed = s.handed ∧
      s'.outputs = s.outputs ∧ s'.framework = s.framework ∧ s'.accounted = s.accounted ∧
        s'.world = s.world ∧ s'.mirrors = s.mirrors := by
  rw [Sys.insert] at h
  cases hinline : place e s.inline with
  | some slots =>
    rw [hinline] at h
    cases h
    refine ⟨?_, rfl, rfl, rfl, rfl, rfl, rfl, rfl, rfl⟩
    rw [Sys.entries, Sys.entries, List.filterMap_append, List.filterMap_append, ← List.cons_append]
    exact (place_perm hinline).append_right _
  | none =>
    rw [hinline] at h
    cases hspill : place e s.spill with
    | some slots =>
      rw [hspill] at h
      cases h
      refine ⟨?_, rfl, rfl, rfl, rfl, rfl, rfl, rfl, rfl⟩
      rw [Sys.entries, Sys.entries, List.filterMap_append, List.filterMap_append]
      exact ((place_perm hspill).append_left _).trans List.perm_middle
    | none =>
      rw [hspill] at h
      cases noMemory with
      | true => cases h
      | false =>
        cases h
        refine ⟨?_, rfl, rfl, rfl, rfl, rfl, rfl, rfl, rfl⟩
        rw [Sys.entries, Sys.entries]
        simp only [List.filterMap_append, List.filterMap_cons, List.filterMap_nil, id]
        rw [← List.append_assoc]
        exact List.perm_append_comm

omit [Zero α] in
/-- `hold` takes a new reference into the scope or gives it back. -/
theorem Balanced.enter (h : Balanced (s.free frame) s.entries) (output : Bool) (refused : Option Thrown)
    (noMemory : Bool) : Balanced (s.enter frame output refused noMemory).2 (s.enter frame output refused noMemory).2.entries ∧
      (s.enter frame output refused noMemory).2.world = s.world ∧
        (s.enter frame output refused noMemory).2.mirrors = s.mirrors := by
  rw [Sys.enter]
  cases hentry : s.entryFor frame output refused with
  | error thrown => exact ⟨h, rfl, rfl⟩
  | ok e =>
    obtain ⟨hframe, hbytes⟩ := entryFor_ok hentry
    cases hinsert : (s.charge e).insert e noMemory with
    | error thrown =>
      simp only [hinsert, uncharge_charge]
      exact ⟨h, rfl, rfl⟩
    | ok s' =>
      simp only [hinsert]
      have hrest := charge_rest s e
      obtain ⟨hperm, htaken, hfreed, hhanded, hout, hframework, hacc, hworld, hmirrors⟩ := insert_ok hinsert
      have hentries : (s.charge e).entries = s.entries := by rw [Sys.entries, Sys.entries, hrest.inline, hrest.spill]
      have hcounts := @charge_counts α s e s.entries h.outputs h.framework hbytes
      refine ⟨Balanced.perm ⟨?_, ?_, ?_, ?_⟩ (hentries ▸ hperm).symm, hworld.trans hrest.world, hmirrors.trans hrest.mirrors⟩
      · rw [htaken, hfreed, hhanded, hrest.taken, hrest.freed, hrest.handed, List.map_cons, hframe]
        exact h.owned.trans List.perm_middle.symm
      · exact hout.trans hcounts.1
      · exact hframework.trans hcounts.2
      · intro hfalse x hx
        have hfalse' : s.accounted = false := (hacc.trans hrest.accounted).symm.trans hfalse
        rcases List.mem_cons.mp hx with rfl | hx
        · exact hbytes hfalse'
        · exact h.uncharged hfalse' x hx

omit [Zero α] in
/-- `forget` of a frame the scope holds: one of its entries goes, with its charge. -/
theorem forget_spec (hheld : ∃ e ∈ s.entries, e.frame = frame) : ∃ e, e.frame = frame ∧
    s.entries.Perm (e :: (s.forget frame).entries) ∧ (s.forget frame).outputs = (s.uncharge e).outputs ∧
      (s.forget frame).framework = (s.uncharge e).framework ∧ (s.forget frame).accounted = s.accounted ∧
        (s.forget frame).taken = s.taken ∧ (s.forget frame).freed = s.freed ∧ (s.forget frame).handed = s.handed ∧
          (s.forget frame).world = s.world ∧ (s.forget frame).mirrors = s.mirrors := by
  rw [Sys.forget]
  cases hinline : drop frame s.inline with
  | some r =>
    obtain ⟨e, slots⟩ := r
    have hrest := uncharge_rest s e
    obtain ⟨hframe, hperm⟩ := drop_perm hinline
    refine ⟨e, hframe, ?_, rfl, rfl, hrest.accounted, hrest.taken, hrest.freed, hrest.handed, hrest.world,
      hrest.mirrors⟩
    simp only [Sys.entries, List.filterMap_append, hrest.spill, ← List.cons_append]
    exact hperm.append_right _
  | none =>
    cases hspill : drop frame s.spill with
    | some r =>
      obtain ⟨e, slots⟩ := r
      have hrest := uncharge_rest s e
      obtain ⟨hframe, hperm⟩ := drop_perm hspill
      refine ⟨e, hframe, ?_, rfl, rfl, hrest.accounted, hrest.taken, hrest.freed, hrest.handed, hrest.world,
        hrest.mirrors⟩
      simp only [Sys.entries, List.filterMap_append, hrest.inline]
      exact (hperm.append_left _).trans List.perm_middle
    | none =>
      obtain ⟨e, he, hframe⟩ := hheld
      rw [Sys.entries, List.filterMap_append] at he
      rcases List.mem_append.mp he with he | he
      · exact absurd hframe (drop_none hinline e he)
      · exact absurd hframe (drop_none hspill e he)

omit [Zero α] in
theorem forget_untouched (s : Sys α) (frame : Nat) :
    (s.forget frame).world = s.world ∧ (s.forget frame).mirrors = s.mirrors := by
  rw [Sys.forget]
  cases drop frame s.inline with
  | some r => exact ⟨(uncharge_rest s r.1).world, (uncharge_rest s r.1).mirrors⟩
  | none =>
    cases drop frame s.spill with
    | some r => exact ⟨(uncharge_rest s r.1).world, (uncharge_rest s r.1).mirrors⟩
    | none => exact ⟨rfl, rfl⟩

omit [Zero α] in
theorem Balanced.freeFrame (h : Balanced s s.entries) (hheld : ∃ e ∈ s.entries, e.frame = frame) :
    Balanced (s.freeFrame (some frame)) (s.freeFrame (some frame)).entries := by
  obtain ⟨e, hframe, hperm, hout, hframework, hacc, htaken, hfreed, hhanded, -, -⟩ := forget_spec hheld
  have hgone := (h.perm hperm).free
  have hrest := uncharge_rest s e
  refine hgone.congr (htaken.trans hrest.taken.symm) ?_ (hhanded.trans hrest.handed.symm) hout hframework
    (hacc.trans hrest.accounted.symm)
  show frame :: (s.forget frame).freed = e.frame :: (s.uncharge e).freed
  rw [hfreed, hrest.freed, hframe]

omit [Zero α] in
theorem Balanced.releaseFrame (h : Balanced s s.entries) (hheld : ∃ e ∈ s.entries, e.frame = frame) :
    Balanced (s.releaseFrame frame) (s.releaseFrame frame).entries := by
  obtain ⟨e, hframe, hperm, hout, hframework, hacc, htaken, hfreed, hhanded, -, -⟩ := forget_spec hheld
  exact (h.perm hperm).hand hframe htaken hfreed (congrArg (frame :: ·) hhanded) hacc hout hframework

omit [Zero α] in
/-- The destructor frees what is left. -/
theorem Balanced.close {slots : List (Option Entry)} (h : Balanced s (slots.filterMap id)) :
    Balanced (slots.foldl Sys.close s) [] := by
  induction slots generalizing s with
  | nil => exact h
  | cons slot slots ih =>
    cases slot with
    | none => exact ih h
    | some e => exact ih (Balanced.free h)

end References

/-! ## Copies -/

section Copies

variable {s : Sys α} {p : Plane α} {stride : Int} {frame plane : Nat} {noMemory : Bool}

omit [Zero α] in
theorem getStride_ok {bytes : Int} (h : p.getStride = .ok bytes) :
    bytes = p.stride ∧ 1 ≤ p.height ∧ 1 ≤ p.width := by
  rw [Plane.getStride] at h
  split_ifs at h with hbad
  cases hmul : checkedMul (toSize (p.stride / 4)) (toSize p.height) with
  | error thrown =>
    rw [hmul] at h
    cases h
  | ok size =>
    rw [hmul] at h
    cases hint : checkedInt size with
    | error thrown =>
      simp only [Except.bind, bind, hint] at h
      cases h
    | ok size' =>
      simp only [Except.bind, bind, hint] at h
      cases h
      exact ⟨rfl, by omega, by omega⟩

/-- A copy shows the rows it was made of. -/
theorem shows_copy (hwidth : 1 ≤ p.width) (hstride : p.width ≤ stride) :
    Shows p stride (Sys.copy p (p.stride / 4) stride) := by
  intro row col hrow hcol
  have hpos : 0 < stride.toNat := by omega
  have hlt : col < stride.toNat := by omega
  have hdiv : (row * stride.toNat + col) / stride.toNat = row := by
    rw [Nat.mul_comm, Nat.mul_add_div hpos, Nat.div_eq_of_lt hlt, Nat.add_zero]
  have hmod : (row * stride.toNat + col) % stride.toNat = col := by
    rw [Nat.mul_comm, Nat.mul_add_mod, Nat.mod_eq_of_lt hlt]
  have hsize : row * stride.toNat + col < (stride * p.height).toNat := by
    have hrows := Nat.mul_le_mul_right stride.toNat (show row + 1 ≤ p.height.toNat by omega)
    rw [Nat.add_mul, Nat.one_mul] at hrows
    have hprod : (stride * p.height).toNat = p.height.toNat * stride.toNat := by
      rw [Int.mul_comm, Int.toNat_mul (by omega) (by omega)]
    omega
  rw [Sys.copy, if_pos hsize, hdiv, hmod, if_pos (by omega)]

/-- What `readPlane` returns while the copies are fresh. -/
theorem Fresh.read (h : Fresh s) {buffer : Nat → Option α}
    (hread : (s.readPlane frame plane stride noMemory).1 = .ok buffer) :
    Shows ((s.world frame).plane plane) stride buffer := by
  rw [Sys.readPlane] at hread
  cases hstride : ((s.world frame).plane plane).getStride with
  | error thrown =>
    simp only [hstride] at hread
    cases hread
  | ok bytes =>
    obtain ⟨rfl, hheight, hwidth⟩ := getStride_ok hstride
    simp only [hstride] at hread
    by_cases hdirect : ((s.world frame).plane plane).stride / 4 = stride
    · rw [if_pos hdirect] at hread
      cases hread
      rintro row col - -
      rw [hdirect]
    · rw [if_neg hdirect] at hread
      by_cases hnarrow : stride < ((s.world frame).plane plane).width
      · rw [if_pos hnarrow] at hread
        cases hread
      · rw [if_neg hnarrow] at hread
        cases hfind : s.mirrors.find? fun m => m.frame = frame ∧ m.plane = plane ∧ m.stride = stride with
        | some m =>
          simp only [hfind] at hread
          cases hread
          have hm := List.mem_of_find?_eq_some hfind
          obtain ⟨rfl, rfl, rfl⟩ : m.frame = frame ∧ m.plane = plane ∧ m.stride = stride := by
            simpa using List.find?_some hfind
          rw [h m hm]
          exact shows_copy hwidth (by omega)
        | none =>
          simp only [hfind] at hread
          cases noMemory with
          | true => cases hread
          | false =>
            cases hread
            exact shows_copy hwidth (by omega)

/-- A read adds a copy of what is there, or none. -/
theorem Fresh.readPlane (h : Fresh s) : Fresh (s.readPlane frame plane stride noMemory).2 := by
  rw [Sys.readPlane]
  cases hstride : ((s.world frame).plane plane).getStride with
  | error thrown => exact h
  | ok bytes =>
    obtain ⟨rfl, -, -⟩ := getStride_ok hstride
    simp only [hstride]
    split_ifs
    · exact h
    · exact h
    · split <;> exact h
    · split
      · exact h
      · intro m hm
        rcases List.mem_append.mp hm with hm | hm
        · exact h m hm
        · obtain rfl := List.mem_singleton.mp hm
          rfl

theorem readPlane_keeps (s : Sys α) : ∃ mirrors, (s.readPlane frame plane stride noMemory).2 = { s with mirrors } := by
  rw [Sys.readPlane]
  cases ((s.world frame).plane plane).getStride with
  | error thrown => exact ⟨s.mirrors, rfl⟩
  | ok bytes =>
    simp only
    split_ifs
    · exact ⟨_, rfl⟩
    · exact ⟨_, rfl⟩
    · split <;> exact ⟨_, rfl⟩
    · split <;> exact ⟨_, rfl⟩

end Copies

/-! ## Runs -/

section Runs

variable {s s' : Sys α} {c : Call α}

omit [Zero α] in
theorem Fresh.congr [Zero α] (h : Fresh s) (hworld : s'.world = s.world) (hmirrors : s'.mirrors = s.mirrors) : Fresh s' := by
  intro m hm
  rw [hworld]
  exact h m (hmirrors ▸ hm)

omit [Zero α] in
theorem Balanced.take (h : Balanced s s.entries) (frame : Option Nat) (output : Bool) (refused : Option Thrown)
    (noMemory : Bool) :
    Balanced (s.hold frame output refused noMemory).2 (s.hold frame output refused noMemory).2.entries ∧
      (s.hold frame output refused noMemory).2.world = s.world ∧
        (s.hold frame output refused noMemory).2.mirrors = s.mirrors := by
  cases frame with
  | none => exact ⟨h, rfl, rfl⟩
  | some f =>
    have hpending : Balanced ({ s with taken := f :: s.taken }.free f) s.entries :=
      ⟨h.owned.cons f, h.outputs, h.framework, h.uncharged⟩
    exact Balanced.enter hpending output refused noMemory

/-- Every call keeps both promises, if copied planes stay as they are. -/
theorem step_keeps (hs : Step s c s') (h : Balanced s s.entries ∧ Fresh s) : Balanced s' s'.entries ∧ Fresh s' := by
  obtain ⟨⟨hholds, rfl⟩, hsettled⟩ := hs
  obtain ⟨hbalanced, hfresh⟩ := h
  cases c with
  | getFrameFilter frame refused noMemory =>
    obtain ⟨hb, hworld, hmirrors⟩ := hbalanced.take frame false refused noMemory
    exact ⟨hb, hfresh.congr hworld hmirrors⟩
  | adoptInput frame refused noMemory =>
    obtain ⟨hb, hworld, hmirrors⟩ := hbalanced.take frame false refused noMemory
    exact ⟨hb, hfresh.congr hworld hmirrors⟩
  | newVideoFrame w h frame refused noMemory =>
    rw [Sys.perform, Sys.newVideoFrame]
    cases checkedMul (toSize w) (toSize h) >>= checkedInt with
    | error thrown => exact ⟨hbalanced, hfresh⟩
    | ok size =>
      obtain ⟨hb, hworld, hmirrors⟩ := hbalanced.take frame true refused noMemory
      exact ⟨hb, hfresh.congr hworld hmirrors⟩
  | adoptOutput frame refused noMemory =>
    obtain ⟨hb, hworld, hmirrors⟩ := hbalanced.take frame true refused noMemory
    exact ⟨hb, hfresh.congr hworld hmirrors⟩
  | freeFrame frame =>
    cases frame with
    | none => exact ⟨hbalanced, hfresh⟩
    | some f =>
      obtain ⟨hworld, hmirrors⟩ := forget_untouched s f
      exact ⟨hbalanced.freeFrame hholds, hfresh.congr hworld hmirrors⟩
  | releaseFrame frame =>
    obtain ⟨hworld, hmirrors⟩ := forget_untouched s frame
    exact ⟨hbalanced.releaseFrame hholds, hfresh.congr hworld hmirrors⟩
  | keep frame budget failed =>
    rw [Sys.perform, Sys.keep]
    cases budget && failed with
    | true => exact ⟨hbalanced, hfresh⟩
    | false =>
      obtain ⟨hworld, hmirrors⟩ := forget_untouched s frame
      exact ⟨hbalanced.releaseFrame hholds, hfresh.congr hworld hmirrors⟩
  | readPlane frame plane stride noMemory =>
    refine ⟨?_, hfresh.readPlane⟩
    obtain ⟨mirrors, hread⟩ : ∃ mirrors, (s.readPlane frame plane stride noMemory).2 = { s with mirrors } :=
      readPlane_keeps s
    rw [Sys.perform, hread]
    exact hbalanced.congr rfl rfl rfl rfl rfl rfl
  | changed frame now =>
    refine ⟨hbalanced.congr rfl rfl rfl rfl rfl rfl, fun m hm => ?_⟩
    by_cases hframe : m.frame = frame
    · have hsame := hsettled m hm hframe
      show m.pixels = Sys.copy ((Function.update s.world frame now m.frame).plane m.plane)
        (((Function.update s.world frame now m.frame).plane m.plane).stride / 4) m.stride
      rw [hframe, Function.update_self, hsame, ← hframe]
      exact hfresh m hm
    · show m.pixels = Sys.copy ((Function.update s.world frame now m.frame).plane m.plane)
        (((Function.update s.world frame now m.frame).plane m.plane).stride / 4) m.stride
      rw [Function.update_of_ne hframe]
      exact hfresh m hm

theorem init_keeps (accounted : Bool) (world : Nat → Frame α) :
    Balanced (Sys.init accounted world) (Sys.init accounted world).entries ∧ Fresh (Sys.init accounted world) := by
  refine ⟨⟨List.Perm.refl _, rfl, rfl, fun _ e he => absurd he List.not_mem_nil⟩, fun m hm => absurd hm List.not_mem_nil⟩

/-- In every run whose copied planes stay as they are: the references that the scope took were freed once, handed out, or
are held; its accounts hold what these were charged; a plane that is read shows the rows that are
there; and the destructor leaves no reference and no charge. -/
theorem scope_run {accounted : Bool} {world : Nat → Frame α} {calls : List (Call α)}
    (h : Path Step (Sys.init accounted world) calls s) :
    Balanced s s.entries ∧
      (∀ frame plane stride noMemory buffer, (s.readPlane frame plane stride noMemory).1 = .ok buffer →
        Shows ((s.world frame).plane plane) stride buffer) ∧
      s.destroy.entries = [] ∧ s.destroy.taken.Perm (s.destroy.freed ++ s.destroy.handed) ∧
        s.destroy.outputs = 0 ∧ s.destroy.framework = 0 := by
  obtain ⟨hbalanced, hfresh⟩ := h.invariant (P := fun s => Balanced s s.entries ∧ Fresh s)
    (init_keeps accounted world) fun a v b => step_keeps
  have hclosed := Balanced.close hbalanced
  refine ⟨hbalanced, fun frame plane stride noMemory buffer => hfresh.read, rfl, ?_, hclosed.outputs,
    hclosed.framework⟩
  have howned := hclosed.owned
  rwa [List.map_nil, List.append_nil] at howned

end Runs

/-! ## Address reuse -/

/-- A frame of one plane: a row of one sample, 64 samples apart from the next. -/
def tiny (sample : Nat) : Frame Nat := ⟨1, fun _ => ⟨256, 1, 1, fun _ => sample⟩⟩

/-- A frame is taken, copied and kept, another one is freed. -/
def smallRun : List (Call Nat) :=
  [.getFrameFilter (some 1) none false, .readPlane 1 0 16 false, .newVideoFrame 1 1 (some 2) none false,
    .freeFrame (some 1), .keep 2 true false]

theorem small_path : Path Step (Sys.init true fun _ => tiny 7) smallRun
    (smallRun.foldl Sys.perform (Sys.init true fun _ => tiny 7)) :=
  .cons ⟨⟨trivial, rfl⟩, trivial⟩ (.cons ⟨⟨trivial, rfl⟩, trivial⟩ (.cons ⟨⟨trivial, rfl⟩, trivial⟩
    (.cons ⟨⟨⟨⟨1, 256, false⟩, by decide, rfl⟩, rfl⟩, trivial⟩
      (.cons ⟨⟨⟨⟨2, 256, true⟩, by decide, rfl⟩, rfl⟩, trivial⟩ (.nil _)))))

theorem scope_run_small : (smallRun.foldl Sys.perform (Sys.init true fun _ => tiny 7)).destroy.outputs = 0 :=
  (scope_run small_path).2.2.2.2.1

/-- The address of a frame that was read and freed is that of the next one. -/
def reuseRun : List (Call Nat) :=
  [.getFrameFilter (some 1) none false, .readPlane 1 0 16 false, .freeFrame (some 1), .changed 1 (tiny 9),
    .getFrameFilter (some 1) none false]

theorem stale_after_reuse : ∃ s buffer, Path Owning (Sys.init true fun _ => tiny 7) reuseRun s ∧
    (s.readPlane 1 0 16 false).1 = .ok buffer ∧ ¬Shows ((s.world 1).plane 0) 16 buffer := by
  refine ⟨_, _, .cons ⟨trivial, rfl⟩ (.cons ⟨trivial, rfl⟩ (.cons ⟨⟨⟨1, 256, false⟩, by decide, rfl⟩, rfl⟩
    (.cons ⟨trivial, rfl⟩ (.cons ⟨trivial, rfl⟩ (.nil _))))), rfl, fun h => ?_⟩
  exact absurd (h 0 0 (by decide) (by decide)) (by decide)

end NssFactory.FrameScope
