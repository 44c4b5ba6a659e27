import NssFactory.Lib.Steps
import NssFactory.Lib.Table
import Mathlib.Algebra.BigOperators.Group.List.Basic
import Mathlib.Algebra.GroupWithZero.Nat

/-!
# The scratch buffers of a filter

`Workspace` of `nss/workspace.hpp`: a buffer for each thread that asks (or one for all in
serial mode), grown on demand, and charged to an account of the budget. Allocations and
charges may fail; what each call meets is its `Env`. The entries of the map are allocated too,
by an allocator that charges the same account: `storage` is what the map itself holds.

A call is two critical sections, the look-up under the shared lock and `grow` under the
exclusive one, and the sections of other threads come between.
-/

namespace NssFactory.Workspace

open Table

/-- The id of a thread; none is `std::thread::id{}`, which no thread has. -/
abbrev Id := Option Nat

structure Buf where
  p : Option Nat
  n : Nat
  deriving DecidableEq, Repr

/-- An entry of `map_`. -/
structure Entry where
  id : Id
  buf : Buf
  deriving DecidableEq, Repr

structure Workspace where
  serial : Bool
  /-- Whether there is an account. -/
  accounted : Bool
  map : List Entry
  /-- The bytes of the map's nodes and buckets. -/
  storage : Nat
  /-- The bytes that the account holds. -/
  charge : Nat
  /-- The live blocks: address and size. -/
  heap : List (Nat × Nat)
  deriving DecidableEq, Repr

inductive Thrown
  | badArrayNewLength | mapEntry | memoryLimit | badAlloc
  deriving DecidableEq, Repr

/-- What a call meets: the map's storage with one more entry, none where it cannot be had,
whether the budget takes the charge, and the block that `posix_memalign` returns. -/
structure Env where
  entry : Option Nat
  acquire : Bool
  alloc : Option Nat

/-- The greatest count of floats whose bytes a `size_t` holds. -/
def maxFloats : Nat := 18446744073709551615 / 4

def bytesOf (floats : Nat) : Nat := max 64 (floats * 4)

/-- The live blocks after one is freed; a null pointer frees none. -/
def without : Option Nat → List (Nat × Nat) → List (Nat × Nat)
  | none, heap => heap
  | some p, heap => others Prod.fst p heap

/-- The pointer of a buffer that is large enough. -/
def Buf.fits (b : Buf) (floats : Nat) : Option Nat := if b.n ≥ floats then b.p else none

namespace Workspace

variable (w : Workspace)

def acquire (bytes : Nat) : Workspace :=
  if w.accounted then { w with charge := w.charge + bytes } else w

def release (bytes : Nat) : Workspace :=
  if w.accounted then { w with charge := w.charge - bytes } else w

/-- `aligned64_free` -/
def free (p : Option Nat) : Workspace := { w with heap := without p w.heap }

/-- The key of a thread. -/
def key (thread : Nat) : Id := if w.serial then none else some thread

/-- The look-up under the shared lock. -/
def lookup (id : Id) (floats : Nat) : Option Nat := (find Entry.id id w.map).bind fun e => e.buf.fits floats

/-- `map_[id]`: a new entry is empty, and the map's storage grows with it. -/
def index (id : Id) (env : Env) : Option (Buf × Workspace) :=
  match find Entry.id id w.map with
  | some e => some (e.buf, w)
  | none => env.entry.map fun storage =>
    (⟨none, 0⟩, { (w.release w.storage).acquire storage with
      map := put Entry.id ⟨id, ⟨none, 0⟩⟩ w.map, storage })

/-- A buffer that does not fit is replaced. -/
def replace (id : Id) (buf : Buf) (floats : Nat) (env : Env) : Except Thrown Nat × Workspace :=
  if w.accounted ∧ env.acquire = false then (.error .memoryLimit, w)
  else
    let w := w.acquire (bytesOf floats)
    match env.alloc with
    | none => (.error .badAlloc, w.release (bytesOf floats))
    | some p =>
      let w := { w with heap := (p, bytesOf floats) :: w.heap }
      let w := w.free buf.p
      let w := if buf.p.isSome then w.release (bytesOf buf.n) else w
      (.ok p, { w with map := put Entry.id ⟨id, ⟨some p, floats⟩⟩ w.map })

/-- What `get` does under the exclusive lock. -/
def grow (id : Id) (floats : Nat) (env : Env) : Except Thrown Nat × Workspace :=
  match w.index id env with
  | none => (.error .mapEntry, w)
  | some (buf, w) =>
    match buf.fits floats with
    | some p => (.ok p, w)
    | none => w.replace id buf floats env

def bufferCount : Nat := w.map.length

/-- Frees a buffer and gives its charge back. -/
def drop (e : Entry) : Workspace :=
  let w := w.free e.buf.p
  if e.buf.p.isSome then w.release (bytesOf e.buf.n) else w

/-- The destructor: the buffers, then the map with its storage. -/
def destroy : Workspace :=
  let w := w.map.foldl drop w
  { w.release w.storage with map := [], storage := 0 }

/-- A new workspace; the map may hold storage before its first entry. -/
def init (accounted : Bool) (storage : Nat) : Workspace where
  serial := false
  accounted
  map := []
  storage
  charge := if accounted then storage else 0
  heap := []

end Workspace

/-- What happens to a workspace, with what the caller sees of it. -/
inductive Event
  | get (thread floats : Nat) (result : Except Thrown Nat)
  /-- A look-up that found no buffer: the call goes on under the exclusive lock. -/
  | miss (thread floats : Nat)
  | setSerial (set : Bool)

/-- One critical section. -/
inductive Step (w : Workspace) : Event → Workspace → Prop
  | reject {thread floats : Nat} (h : maxFloats < floats) :
      Step w (.get thread floats (.error .badArrayNewLength)) w
  | hit {thread floats p : Nat} (h : floats ≤ maxFloats) (hp : w.lookup (w.key thread) floats = some p) :
      Step w (.get thread floats (.ok p)) w
  | miss {thread floats : Nat} (h : floats ≤ maxFloats) (hp : w.lookup (w.key thread) floats = none) :
      Step w (.miss thread floats) w
  | grow {thread floats : Nat} {env : Env} (h : floats ≤ maxFloats)
      -- the allocator returns no block that is live
      (hfresh : ∀ p, env.alloc = some p → ∀ block ∈ w.heap, block.1 ≠ p) :
      Step w (.get thread floats (w.grow (w.key thread) floats env).1) (w.grow (w.key thread) floats env).2
  | setSerial (h : w.map = []) : Step w (.setSerial true) { w with serial := true }
  | inUse (h : w.map ≠ []) : Step w (.setSerial false) w

/-! ## The books -/

/-- The block of an entry, if it has one. -/
def Entry.block (e : Entry) : Option (Nat × Nat) := e.buf.p.map fun p => (p, bytesOf e.buf.n)

def blocks (map : List Entry) : List (Nat × Nat) := map.filterMap Entry.block

def held (blocks : List (Nat × Nat)) : Nat := (blocks.map Prod.snd).sum

/-- The live blocks are those of the entries, and the account holds them and the map. -/
structure Sound (w : Workspace) : Prop where
  ids : (w.map.map Entry.id).Nodup
  heap : w.heap.Perm (blocks w.map)
  addresses : (w.heap.map Prod.fst).Nodup
  charge : w.charge = if w.accounted then w.storage + held w.heap else 0

section Fields

variable (w : Workspace) (bytes : Nat)

@[simp] theorem acquire_map : (w.acquire bytes).map = w.map := by
  cases h : w.accounted <;> simp [Workspace.acquire, h]

@[simp] theorem acquire_heap : (w.acquire bytes).heap = w.heap := by
  cases h : w.accounted <;> simp [Workspace.acquire, h]

@[simp] theorem acquire_storage : (w.acquire bytes).storage = w.storage := by
  cases h : w.accounted <;> simp [Workspace.acquire, h]

@[simp] theorem acquire_accounted : (w.acquire bytes).accounted = w.accounted := by
  cases h : w.accounted <;> simp [Workspace.acquire, h]

@[simp] theorem acquire_serial : (w.acquire bytes).serial = w.serial := by
  cases h : w.accounted <;> simp [Workspace.acquire, h]

@[simp] theorem acquire_charge :
    (w.acquire bytes).charge = if w.accounted then w.charge + bytes else w.charge := by
  cases h : w.accounted <;> simp [Workspace.acquire, h]

@[simp] theorem release_map : (w.release bytes).map = w.map := by
  cases h : w.accounted <;> simp [Workspace.release, h]

@[simp] theorem release_heap : (w.release bytes).heap = w.heap := by
  cases h : w.accounted <;> simp [Workspace.release, h]

@[simp] theorem release_storage : (w.release bytes).storage = w.storage := by
  cases h : w.accounted <;> simp [Workspace.release, h]

@[simp] theorem release_accounted : (w.release bytes).accounted = w.accounted := by
  cases h : w.accounted <;> simp [Workspace.release, h]

@[simp] theorem release_charge :
    (w.release bytes).charge = if w.accounted then w.charge - bytes else w.charge := by
  cases h : w.accounted <;> simp [Workspace.release, h]

/-- A charge that is given back leaves no trace. -/
theorem release_acquire : (w.acquire bytes).release bytes = w := by
  cases w with
  | mk serial accounted => cases accounted <;> simp [Workspace.acquire, Workspace.release]

end Fields

section Lemmas

variable {w : Workspace} {id : Id} {buf : Buf} {floats p : Nat} {env : Env}

theorem held_perm {l l' : List (Nat × Nat)} (h : l.Perm l') : held l = held l' := (h.map _).sum_eq

@[simp] theorem held_cons {b : Nat × Nat} {l : List (Nat × Nat)} : held (b :: l) = b.2 + held l := by
  simp [held]

theorem sound_init {accounted : Bool} {storage : Nat} : Sound (Workspace.init accounted storage) where
  ids := List.nodup_nil
  heap := .nil
  addresses := List.nodup_nil
  charge := by simp [Workspace.init, held]

/-- The blocks with an entry's own first. -/
theorem Sound.heap_entry (h : Sound w) {e : Entry} (he : e ∈ w.map) :
    w.heap.Perm (e.block.toList ++ blocks (others Entry.id e.id w.map)) := by
  have hperm := (perm_of_mem h.ids he).filterMap Entry.block
  refine h.heap.trans (hperm.trans ?_)
  cases hb : e.block <;> simp [hb, blocks]

/-- What `map_[id]` leaves: the entry is there, and a new one has no block. -/
theorem Sound.index (h : Sound w) {w' : Workspace} (hi : w.index id env = some (buf, w')) :
    Sound w' ∧ (⟨id, buf⟩ : Entry) ∈ w'.map ∧ w'.heap = w.heap := by
  rw [Workspace.index] at hi
  cases hfind : find Entry.id id w.map with
  | some e =>
    simp only [hfind, Option.some.injEq, Prod.mk.injEq] at hi
    obtain ⟨rfl, rfl⟩ := hi
    obtain ⟨he, rfl⟩ := find_some hfind
    exact ⟨h, he, rfl⟩
  | none =>
    rw [hfind] at hi
    obtain ⟨storage, -, hi⟩ := Option.map_eq_some_iff.mp hi
    obtain ⟨rfl, rfl⟩ := Prod.mk.inj hi
    refine ⟨⟨?_, ?_, ?_, ?_⟩, ?_, ?_⟩
    · exact nodup_put h.ids
    · have habsent : others Entry.id id w.map = w.map :=
        others_of_absent fun e he => find_none hfind he
      simpa [put, blocks, Entry.block, List.filterMap_cons, habsent] using h.heap
    · simpa using h.addresses
    · have hcharge := h.charge
      simp only [acquire_charge, release_charge, release_accounted, acquire_accounted, acquire_heap,
        release_heap]
      cases hacc : w.accounted <;> simp [hacc] at hcharge ⊢ <;> omega
    · simp [mem_put]
    · simp

/-- Where `replace` throws it has given back what it charged. -/
theorem replace_error {e : Thrown} {w' : Workspace} (hr : w.replace id buf floats env = (.error e, w')) :
    w' = w := by
  rw [Workspace.replace] at hr
  by_cases hlimit : w.accounted ∧ env.acquire = false
  · rw [if_pos hlimit] at hr
    exact (Prod.mk.inj hr).2.symm
  · rw [if_neg hlimit] at hr
    cases halloc : env.alloc with
    | none =>
      simp only [halloc, release_acquire] at hr
      exact (Prod.mk.inj hr).2.symm
    | some p =>
      simp only [halloc] at hr
      exact absurd (Prod.mk.inj hr).1 (by simp)

theorem without_sublist (q : Option Nat) (l : List (Nat × Nat)) : (without q l).Sublist l := by
  cases q with
  | none => exact List.Sublist.refl l
  | some q => exact List.filter_sublist

/-- The blocks after an entry's own is freed. -/
theorem Sound.heap_free (h : Sound w) (he : (⟨id, buf⟩ : Entry) ∈ w.map) {b : Nat × Nat}
    (hfresh : ∀ block ∈ w.heap, block.1 ≠ b.1) :
    (without buf.p (b :: w.heap)).Perm (b :: blocks (others Entry.id id w.map)) := by
  have hentry := h.heap_entry he
  cases hp : buf.p with
  | none => simpa [without, Entry.block, hp] using hentry
  | some q =>
    have hblock : (⟨id, buf⟩ : Entry).block = some (q, bytesOf buf.n) := by simp [Entry.block, hp]
    rw [hblock] at hentry
    have hmem : (q, bytesOf buf.n) ∈ w.heap := hentry.mem_iff.mpr (by simp)
    have hself : w.heap.Perm ((q, bytesOf buf.n) :: others Prod.fst q w.heap) :=
      perm_of_mem h.addresses hmem
    have hkeep : others Prod.fst q (b :: w.heap) = b :: others Prod.fst q w.heap :=
      List.filter_cons_of_pos (by simpa using (hfresh _ hmem).symm)
    rw [without, hkeep]
    exact (hself.symm.trans hentry).cons_inv.cons b

/-- The account holds the blocks of the other entries beside an entry's own. -/
theorem Sound.held_entry (h : Sound w) (he : (⟨id, buf⟩ : Entry) ∈ w.map) :
    held w.heap = (if buf.p.isSome then bytesOf buf.n else 0) + held (blocks (others Entry.id id w.map)) := by
  rw [held_perm (h.heap_entry he)]
  cases hp : buf.p <;> simp [Entry.block, hp]

theorem Sound.replace (h : Sound w) (he : (⟨id, buf⟩ : Entry) ∈ w.map) {w' : Workspace}
    (hfresh : ∀ p, env.alloc = some p → ∀ block ∈ w.heap, block.1 ≠ p)
    (hr : w.replace id buf floats env = (.ok p, w')) :
    Sound w' ∧ (⟨id, ⟨some p, floats⟩⟩ : Entry) ∈ w'.map := by
  rw [Workspace.replace] at hr
  by_cases hlimit : w.accounted ∧ env.acquire = false
  · rw [if_pos hlimit] at hr
    exact absurd (Prod.mk.inj hr).1 (by simp)
  · rw [if_neg hlimit] at hr
    cases halloc : env.alloc with
    | none =>
      simp only [halloc] at hr
      exact absurd (Prod.mk.inj hr).1 (by simp)
    | some q =>
      have hfree := h.heap_free he (b := (q, bytesOf floats)) (hfresh q halloc)
      have hheld := h.held_entry he
      have hcharge := h.charge
      simp only [halloc, acquire_heap] at hr
      obtain ⟨hq, hw⟩ := Prod.mk.inj hr
      obtain rfl : q = p := Except.ok.inj hq
      subst hw
      have hblocks : blocks (put Entry.id ⟨id, ⟨some q, floats⟩⟩ w.map) =
          (q, bytesOf floats) :: blocks (others Entry.id id w.map) := by
        simp [put, blocks, Entry.block, List.filterMap_cons]
      have haddresses : ((without buf.p ((q, bytesOf floats) :: w.heap)).map Prod.fst).Nodup := by
        refine List.Nodup.sublist ((without_sublist _ _).map Prod.fst) (List.nodup_cons.mpr ⟨?_, h.addresses⟩)
        intro hmem
        obtain ⟨block, hblock, hsame⟩ := List.mem_map.mp hmem
        exact hfresh q halloc block hblock hsame
      have hmem : (⟨id, ⟨some q, floats⟩⟩ : Entry) ∈ put Entry.id ⟨id, ⟨some q, floats⟩⟩ w.map := by
        simp [mem_put]
      have hafter : held (without buf.p ((q, bytesOf floats) :: w.heap)) =
          bytesOf floats + held (blocks (others Entry.id id w.map)) := by
        rw [held_perm hfree, held_cons]
      cases hp : buf.p with
      | none =>
        simp only [hp, Option.isSome_none, Bool.false_eq_true, if_false, Nat.zero_add, Workspace.free,
          acquire_map, acquire_serial] at hheld hafter hfree haddresses ⊢
        refine ⟨⟨nodup_put h.ids, hblocks ▸ hfree, haddresses, ?_⟩, hmem⟩
        simp only [acquire_charge, acquire_accounted, acquire_storage, hafter]
        cases hacc : w.accounted <;> simp [hacc] at hcharge ⊢ <;> omega
      | some old =>
        simp only [hp, Option.isSome_some, if_true, Workspace.free, release_map, acquire_map, release_heap,
          acquire_heap] at hheld hafter hfree haddresses ⊢
        refine ⟨⟨nodup_put h.ids, hblocks ▸ hfree, haddresses, ?_⟩, hmem⟩
        simp only [release_charge, acquire_charge, acquire_accounted, release_accounted, release_storage,
          acquire_storage, hafter]
        cases hacc : w.accounted <;> simp [hacc] at hcharge ⊢ <;> omega

theorem Buf.fits_some (h : buf.fits floats = some p) : buf.p = some p ∧ floats ≤ buf.n := by
  rw [Buf.fits] at h
  by_cases hn : buf.n ≥ floats
  · exact ⟨by rwa [if_pos hn] at h, hn⟩
  · rw [if_neg hn] at h
    exact absurd h (by simp)

/-- A thread holds `p`: a live block of at least `floats` floats, under its own key. -/
def Holds (w : Workspace) (id : Id) (floats p : Nat) : Prop :=
  ∃ n, floats ≤ n ∧ (⟨id, ⟨some p, n⟩⟩ : Entry) ∈ w.map ∧ (p, bytesOf n) ∈ w.heap

theorem Sound.holds (h : Sound w) {n : Nat} (he : (⟨id, ⟨some p, n⟩⟩ : Entry) ∈ w.map) (hn : floats ≤ n) :
    Holds w id floats p :=
  ⟨n, hn, he, h.heap.mem_iff.mpr (List.mem_filterMap.mpr ⟨_, he, rfl⟩)⟩

theorem Sound.lookup (h : Sound w) (hp : w.lookup id floats = some p) : Holds w id floats p := by
  obtain ⟨e, hfind, hfits⟩ := Option.bind_eq_some_iff.mp hp
  obtain ⟨he, rfl⟩ := find_some hfind
  obtain ⟨hptr, hn⟩ := Buf.fits_some hfits
  have hsame : e = ⟨e.id, ⟨some p, e.buf.n⟩⟩ := by rw [← hptr]
  exact h.holds (hsame ▸ he) hn

/-- What a failed call may leave behind: nothing, or an empty entry of a thread that had none. -/
inductive Unchanged (w : Workspace) (id : Id) : Workspace → Prop
  | same : Unchanged w id w
  | entry {storage : Nat} (habsent : find Entry.id id w.map = none) : Unchanged w id
      { w with
        map := ⟨id, ⟨none, 0⟩⟩ :: w.map, storage
        charge := if w.accounted then w.charge - w.storage + storage else w.charge }

theorem index_unchanged {w' : Workspace} (hi : w.index id env = some (buf, w')) : Unchanged w id w' := by
  rw [Workspace.index] at hi
  cases hfind : find Entry.id id w.map with
  | some e =>
    simp only [hfind, Option.some.injEq, Prod.mk.injEq] at hi
    exact hi.2 ▸ .same
  | none =>
    rw [hfind] at hi
    obtain ⟨storage, -, hi⟩ := Option.map_eq_some_iff.mp hi
    obtain ⟨-, rfl⟩ := Prod.mk.inj hi
    have hput : put Entry.id ⟨id, ⟨none, 0⟩⟩ w.map = ⟨id, ⟨none, 0⟩⟩ :: w.map := by
      rw [put, others_of_absent fun e he => find_none hfind he]
    have hentry := @Unchanged.entry w id storage hfind
    cases hacc : w.accounted <;> simp [Workspace.acquire, Workspace.release, hacc, hput] at hentry ⊢ <;>
      exact hentry

/-- The exclusive section: books that balance stay so, a pointer that is returned is the
thread's, and a failure changes no buffer. -/
theorem Sound.grow (h : Sound w) (hfresh : ∀ p, env.alloc = some p → ∀ block ∈ w.heap, block.1 ≠ p) :
    Sound (w.grow id floats env).2 ∧
      (∀ p, (w.grow id floats env).1 = .ok p → Holds (w.grow id floats env).2 id floats p) ∧
      (∀ e, (w.grow id floats env).1 = .error e → Unchanged w id (w.grow id floats env).2) := by
  rw [Workspace.grow]
  cases hi : w.index id env with
  | none => exact ⟨h, by simp, fun _ _ => .same⟩
  | some r =>
    obtain ⟨buf, w₁⟩ := r
    obtain ⟨h₁, he, hheap⟩ := h.index hi
    simp only
    cases hfits : buf.fits floats with
    | some p =>
      refine ⟨h₁, fun q hq => ?_, by simp⟩
      obtain rfl : p = q := Except.ok.inj hq
      obtain ⟨hptr, hn⟩ := Buf.fits_some hfits
      have hsame : buf = ⟨some p, buf.n⟩ := by rw [← hptr]
      exact h₁.holds (hsame ▸ he) hn
    | none =>
      simp only
      cases hr : w₁.replace id buf floats env with
      | mk result w₂ =>
        cases result with
        | error e =>
          obtain rfl := replace_error hr
          exact ⟨h₁, by simp, fun _ _ => index_unchanged hi⟩
        | ok p =>
          obtain ⟨h₂, hmem⟩ := h₁.replace he (hheap ▸ hfresh) hr
          refine ⟨h₂, fun q hq => ?_, by simp⟩
          obtain rfl : p = q := Except.ok.inj hq
          exact h₂.holds hmem (Nat.le_refl _)

theorem Sound.step (h : Sound w) {e : Event} {w' : Workspace} (hs : Step w e w') : Sound w' := by
  cases hs with
  | reject => exact h
  | hit => exact h
  | miss => exact h
  | grow _ hfresh => exact (h.grow hfresh).1
  | setSerial hmap => exact ⟨h.ids, h.heap, h.addresses, h.charge⟩
  | inUse => exact h

/-- Dropping the entries one after the other leaves no block and only the map's own charge. -/
theorem foldl_drop {l : List Entry} (hheap : w.heap.Perm (blocks l)) (haddresses : (w.heap.map Prod.fst).Nodup)
    (hcharge : w.charge = if w.accounted then w.storage + held w.heap else 0) :
    (l.foldl Workspace.drop w).heap = [] ∧
      (l.foldl Workspace.drop w).charge = (if w.accounted then w.storage else 0) ∧
      (l.foldl Workspace.drop w).storage = w.storage ∧ (l.foldl Workspace.drop w).accounted = w.accounted := by
  induction l generalizing w with
  | nil =>
    have hempty : w.heap = [] := hheap.eq_nil
    rw [hempty] at hcharge
    exact ⟨hempty, hcharge, rfl, rfl⟩
  | cons e l ih =>
    rw [List.foldl_cons]
    have hnodup : ((without e.buf.p w.heap).map Prod.fst).Nodup :=
      haddresses.sublist ((without_sublist _ _).map Prod.fst)
    cases hp : e.buf.p with
    | none =>
      have hskip : w.drop e = w := by simp [Workspace.drop, Workspace.free, without, hp]
      rw [hskip]
      exact ih (by simpa [blocks, Entry.block, hp] using hheap) haddresses hcharge
    | some q =>
      have hall : w.heap.Perm ((q, bytesOf e.buf.n) :: blocks l) := by
        simpa [blocks, Entry.block, hp, List.filterMap_cons] using hheap
      have hself : w.heap.Perm ((q, bytesOf e.buf.n) :: others Prod.fst q w.heap) :=
        perm_of_mem haddresses (hall.mem_iff.mpr List.mem_cons_self)
      have hrest : (without e.buf.p w.heap).Perm (blocks l) := by
        rw [hp]
        exact (hself.symm.trans hall).cons_inv
      have hheld : held w.heap = bytesOf e.buf.n + held (without e.buf.p w.heap) := by
        rw [held_perm hall, held_cons, held_perm hrest]
      have hdrop : w.drop e = (w.free e.buf.p).release (bytesOf e.buf.n) := by
        simp [Workspace.drop, hp]
      have hdone := @ih (w.drop e)
      simp only [hdrop, release_heap, release_charge, release_accounted, release_storage,
        Workspace.free] at hdone ⊢
      refine hdone hrest hnodup ?_
      cases hacc : w.accounted <;> simp [hacc] at hcharge ⊢ <;> omega

theorem Sound.destroy (h : Sound w) : w.destroy.charge = 0 ∧ w.destroy.heap = [] ∧ w.destroy.map = [] := by
  obtain ⟨hheap, hcharge, hstorage, haccounted⟩ := foldl_drop h.heap h.addresses h.charge
  refine ⟨?_, ?_, rfl⟩
  · simp only [Workspace.destroy, release_charge, haccounted, hcharge, hstorage]
    cases w.accounted <;> simp
  · simp only [Workspace.destroy, release_heap, hheap]

theorem Sound.returned (h : Sound w) {thread : Nat} {e : Event} {w' : Workspace} (hs : Step w e w')
    (he : e = .get thread floats (.ok p)) : Holds w' (w.key thread) floats p := by
  cases hs with
  | reject => simp at he
  | hit _ hp =>
    obtain ⟨rfl, rfl, hp'⟩ := Event.get.inj he
    exact h.lookup (Except.ok.inj hp' ▸ hp)
  | miss => simp at he
  | grow _ hfresh =>
    obtain ⟨rfl, rfl, hp⟩ := Event.get.inj he
    exact (h.grow hfresh).2.1 p hp
  | setSerial => simp at he
  | inUse => simp at he

theorem Sound.threw (h : Sound w) {thread : Nat} {e : Event} {t : Thrown} {w' : Workspace}
    (hs : Step w e w') (he : e = .get thread floats (.error t)) : Unchanged w (w.key thread) w' := by
  cases hs with
  | reject => exact .same
  | hit => simp at he
  | miss => simp at he
  | grow _ hfresh =>
    obtain ⟨rfl, rfl, ht⟩ := Event.get.inj he
    exact (h.grow hfresh).2.2 t ht
  | setSerial => simp at he
  | inUse => simp at he

end Lemmas

/-! ## Over whole runs -/

/-- Whatever fails in a run of calls, the account holds the live buffers and the map's own
storage; a pointer that a call returns is a live buffer of its thread, large enough; a call
that throws changes no buffer, and leaves at most an empty entry where its thread had none;
destruction gives everything back. -/
theorem workspace_calls {accounted : Bool} {storage : Nat} {es : List Event} {w : Workspace}
    (h : Path Step (Workspace.init accounted storage) es w) :
    w.charge = (if w.accounted then w.storage + held w.heap else 0) ∧
    w.heap.Perm (blocks w.map) ∧
    (∀ thread floats p w', Step w (.get thread floats (.ok p)) w' → Holds w' (w.key thread) floats p) ∧
    (∀ thread floats e w', Step w (.get thread floats (.error e)) w' → Unchanged w (w.key thread) w') ∧
    (w.destroy.charge = 0 ∧ w.destroy.heap = [] ∧ w.destroy.map = []) := by
  have hsound : Sound w := h.invariant sound_init fun _ _ _ hs hw => Sound.step hw hs
  refine ⟨hsound.charge, hsound.heap, fun thread floats p w' hs => ?_, fun thread floats e w' hs => ?_,
    hsound.destroy⟩
  · exact hsound.returned hs rfl
  · exact hsound.threw hs rfl

/-- A thread's first call, which allocates its entry and its buffer. -/
theorem workspace_calls_first :
    ((Workspace.init true 0).grow (some 7) 10 ⟨some 40, true, some 4096⟩).2.charge = 40 + 64 ∧
      ((Workspace.init true 0).grow (some 7) 10 ⟨some 40, true, some 4096⟩).2.destroy.charge = 0 :=
  have hs : Step (Workspace.init true 0) (.get 7 10 (.ok 4096))
      ((Workspace.init true 0).grow (some 7) 10 ⟨some 40, true, some 4096⟩).2 :=
    @Step.grow (Workspace.init true 0) 7 10 ⟨some 40, true, some 4096⟩ (by decide) (by simp [Workspace.init])
  have h := workspace_calls (.cons hs (.nil _))
  ⟨h.1, h.2.2.2.2.1⟩

/-- A first call whose buffer the budget refuses leaves an empty entry, which is counted and
charged. -/
theorem refused_first_call_counts :
    ¬∀ (es : List Event) (w : Workspace), Path Step (Workspace.init true 0) es w →
      ∀ (thread floats : Nat) (e : Thrown) (w' : Workspace), Step w (.get thread floats (.error e)) w' →
        w'.bufferCount = w.bufferCount ∧ w'.charge = w.charge := by
  intro h
  have hs : Step (Workspace.init true 0) (.get 7 10 (.error .memoryLimit))
      ((Workspace.init true 0).grow (some 7) 10 ⟨some 40, false, none⟩).2 :=
    @Step.grow (Workspace.init true 0) 7 10 ⟨some 40, false, none⟩ (by decide) (by simp)
  have hsame := (h [] _ (.nil _) 7 10 .memoryLimit _ hs).1
  exact absurd hsame (by decide)

end NssFactory.Workspace
