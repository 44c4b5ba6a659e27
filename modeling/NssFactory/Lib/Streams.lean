import Mathlib.Data.Finset.Card
import Mathlib.Data.Finset.Lattice.Basic
import Mathlib.Data.Finset.Max
import Mathlib.Data.List.Induction

/-!
# Streams of a device

A host queues work on the streams of a device. A stream does its items in turn; an event remembers
how far a stream had been given work, and an item may be a wait for an event. The device is free
otherwise: `Exec` has every interleaving of its progress with the host's calls.

* `Known` follows what is known to be done: behind the end of a stream, behind an event, and by
  the host. `host_subset_done` says that the host is right.
* A trace is `Safe` when no item touches a location that something unordered with it touches:
  what an item conflicts with is done before it, `Exec.conflict_done`.
* `Follows` follows one location through a trace, with the views that cover it, and
  `safe_of_follows` makes the safety of a trace from that of each location.
-/

namespace NssFactory.Streams

variable {S E L V : Type*}

/-- What a stream is given to do. -/
inductive Work (L V : Type*) where
  | assign (target : L) (sources : List L) (f : List V → V)
  | signal (value : Nat)

namespace Work

def locs : Work L V → List L
  | assign target sources _ => target :: sources
  | signal _ => []

def run [DecidableEq L] : Work L V → (L → V) → L → V
  | assign target sources f, m => Function.update m target (f (sources.map m))
  | signal _, m => m

end Work

inductive Item (S L V : Type*) where
  | work (s : S) (w : Work L V)
  /-- A wait for the first `n` items, of them those of stream `t`. -/
  | wait (s t : S) (n : Nat)

namespace Item

def stream : Item S L V → S
  | work s _ => s
  | wait s _ _ => s

def target : Item S L V → Option (S × Nat)
  | work _ _ => none
  | wait _ t n => some (t, n)

def run [DecidableEq L] : Item S L V → (L → V) → L → V
  | work _ w, m => w.run m
  | wait _ _ _, m => m

def locs : Item S L V → List L
  | work _ w => w.locs
  | wait _ _ _ => []

end Item

/-- What the host asks for. -/
inductive Call (S E L V : Type*) where
  | queue (s : S) (w : Work L V)
  | record (e : E) (s : S)
  | wait (s : S) (e : E)
  | syncEvent (e : E)
  | syncStream (s : S)

/-- What has been asked for: the items in the order of the calls, and for an event the stream and
the number of items it was recorded behind. -/
structure Queue (S E L V : Type*) where
  items : List (Item S L V)
  event : E → Option (S × Nat)

namespace Queue

def empty : Queue S E L V := ⟨[], fun _ => none⟩

/-- An event that was never recorded is not waited for. -/
def waiting (q : Queue S E L V) (s : S) (e : E) : Item S L V :=
  match q.event e with
  | some (t, n) => .wait s t n
  | none => .wait s s 0

variable [DecidableEq E]

def call (q : Queue S E L V) : Call S E L V → Queue S E L V
  | .queue s w => { q with items := q.items ++ [Item.work s w] }
  | .record e s => { q with event := Function.update q.event e (some (s, q.items.length)) }
  | .wait s e => { q with items := q.items ++ [q.waiting s e] }
  | .syncEvent _ => q
  | .syncStream _ => q

end Queue

/-- Item `i` starts after item `j` is done. -/
def Before (items : List (Item S L V)) (j i : Nat) : Prop :=
  ∃ x y, items[i]? = some x ∧ items[j]? = some y ∧ j < i ∧
    (y.stream = x.stream ∨ ∃ n, x.target = some (y.stream, n) ∧ j < n)

/-- Of the first `n` items, those of stream `s`. -/
def OnStream (items : List (Item S L V)) (s : S) (n j : Nat) : Prop :=
  j < n ∧ ∃ x, items[j]? = some x ∧ x.stream = s

/-- Whether a call returns, with the items in `done` done. -/
def Queue.admits (q : Queue S E L V) (done : Finset Nat) : Call S E L V → Prop
  | .syncEvent e => ∀ s n, q.event e = some (s, n) → ∀ j, OnStream q.items s n j → j ∈ done
  | .syncStream s => ∀ j, OnStream q.items s q.items.length j → j ∈ done
  | _ => True

structure State (S E L V : Type*) where
  queue : Queue S E L V
  done : Finset Nat
  mem : L → V

section Executions

variable [DecidableEq E] [DecidableEq L]

/-- All that calls have asked for. -/
def queued (cs : List (Call S E L V)) : Queue S E L V := cs.foldl Queue.call .empty

/-- The executions of calls, from a memory on. -/
inductive Exec (m₀ : L → V) : List (Call S E L V) → State S E L V → Prop
  | start : Exec m₀ [] ⟨.empty, ∅, m₀⟩
  | call {cs : List (Call S E L V)} {st : State S E L V} (c : Call S E L V) (h : Exec m₀ cs st)
      (hc : st.queue.admits st.done c) : Exec m₀ (cs ++ [c]) { st with queue := st.queue.call c }
  | complete {cs : List (Call S E L V)} {st : State S E L V} {i : Nat} {x : Item S L V}
      (h : Exec m₀ cs st) (hx : st.queue.items[i]? = some x) (hi : i ∉ st.done)
      (hbefore : ∀ j, Before st.queue.items j i → j ∈ st.done) :
      Exec m₀ cs { st with done := insert i st.done, mem := x.run st.mem }

end Executions

/-! ## What is known to be done -/

/-- What is done behind the last item of a stream, behind an event, and for the host; which items
touch a location; and what is done when an item starts. -/
structure Known (S E L : Type*) where
  size : Nat
  tail : S → Finset Nat
  mark : E → Finset Nat
  host : Finset Nat
  touched : L → Finset Nat
  prior : Nat → Finset Nat

namespace Known

def empty : Known S E L := ⟨0, fun _ => ∅, fun _ => ∅, ∅, fun _ => ∅, fun _ => ∅⟩

variable [DecidableEq S] [DecidableEq E] [DecidableEq L]

def call (k : Known S E L) : Call S E L V → Known S E L
  | .queue s w =>
    { k with
      size := k.size + 1
      tail := Function.update k.tail s (insert k.size (k.tail s))
      touched := fun l => if l ∈ w.locs then insert k.size (k.touched l) else k.touched l
      prior := Function.update k.prior k.size (k.tail s ∪ k.host) }
  | .record e s => { k with mark := Function.update k.mark e (k.tail s) }
  | .wait s e =>
    { k with
      size := k.size + 1
      tail := Function.update k.tail s (insert k.size (k.tail s ∪ k.mark e))
      prior := Function.update k.prior k.size (k.tail s ∪ k.mark e ∪ k.host) }
  | .syncEvent e => { k with host := k.host ∪ k.mark e }
  | .syncStream s => { k with host := k.host ∪ k.tail s }

def run (k : Known S E L) (cs : List (Call S E L V)) : Known S E L := cs.foldl call k

theorem run_append (k : Known S E L) (cs cs' : List (Call S E L V)) :
    k.run (cs ++ cs') = (k.run cs).run cs' := List.foldl_append

end Known

theorem Queue.waiting_stream (q : Queue S E L V) (s : S) (e : E) : (q.waiting s e).stream = s := by
  unfold Queue.waiting
  split <;> rfl

theorem Queue.waiting_locs (q : Queue S E L V) (s : S) (e : E) : (q.waiting s e).locs = [] := by
  unfold Queue.waiting
  split <;> rfl

theorem Queue.waiting_target (q : Queue S E L V) (s : S) (e : E) (j : Nat) :
    (∃ t n, q.event e = some (t, n) ∧ OnStream q.items t n j) ↔
      ∃ t n, (q.waiting s e).target = some (t, n) ∧ OnStream q.items t n j := by
  unfold Queue.waiting
  split
  · next t n he => simp [he, Item.target]
  · next he => simp [he, Item.target, OnStream]

/-! ## The order of the items -/

variable {items : List (Item S L V)} {x : Item S L V} {i j n : Nat} {s t : S} {X Y : Finset Nat}

theorem getElem?_snoc_lt (h : i < items.length) : (items ++ [x])[i]? = items[i]? :=
  List.getElem?_append_left h

theorem before_snoc_iff (hi : i < items.length) : Before (items ++ [x]) j i ↔ Before items j i := by
  unfold Before
  constructor
  · rintro ⟨a, b, ha, hb, hji, hab⟩
    rw [getElem?_snoc_lt (by omega)] at ha hb
    exact ⟨a, b, ha, hb, hji, hab⟩
  · rintro ⟨a, b, ha, hb, hji, hab⟩
    refine ⟨a, b, ?_, ?_, hji, hab⟩
    · rwa [getElem?_snoc_lt hi]
    · rwa [getElem?_snoc_lt (by omega)]

theorem onStream_snoc_iff (hn : n ≤ items.length) :
    OnStream (items ++ [x]) s n j ↔ OnStream items s n j := by
  unfold OnStream
  refine and_congr_right fun hj => ?_
  rw [getElem?_snoc_lt (by omega)]

/-- What comes before the item that is queued next. -/
theorem before_last_iff : Before (items ++ [x]) j items.length ↔
    OnStream items x.stream items.length j ∨
      ∃ t n, x.target = some (t, n) ∧ j < items.length ∧ OnStream items t n j := by
  unfold Before OnStream
  constructor
  · rintro ⟨a, b, ha, hb, hji, hab⟩
    rw [getElem?_snoc_lt hji] at hb
    obtain rfl : x = a := by simpa using ha
    rcases hab with hab | ⟨n, hn, hjn⟩
    · exact .inl ⟨hji, b, hb, hab⟩
    · exact .inr ⟨b.stream, n, hn, hji, hjn, b, hb, rfl⟩
  · rintro (⟨hji, b, hb, hab⟩ | ⟨t, n, hn, hji, hjn, b, hb, rfl⟩)
    · exact ⟨x, b, by simp, by rwa [getElem?_snoc_lt hji], hji, .inl hab⟩
    · exact ⟨x, b, by simp, by rwa [getElem?_snoc_lt hji], hji, .inr ⟨n, hn, hjn⟩⟩

/-- With an item, what comes before it. -/
def Closed (items : List (Item S L V)) (X : Finset Nat) : Prop :=
  ∀ i ∈ X, ∀ j, Before items j i → j ∈ X

theorem Closed.union (hX : Closed items X) (hY : Closed items Y) : Closed items (X ∪ Y) := by
  intro i hi j hj
  rcases Finset.mem_union.mp hi with hi | hi
  · exact Finset.mem_union_left _ (hX i hi j hj)
  · exact Finset.mem_union_right _ (hY i hi j hj)

theorem Closed.snoc (hX : Closed items X) (hlt : ∀ i ∈ X, i < items.length) :
    Closed (items ++ [x]) X := fun i hi j hj => hX i hi j ((before_snoc_iff (hlt i hi)).mp hj)

theorem Closed.of_snoc (hY : Closed (items ++ [x]) Y) :
    Closed items (Y.filter (· < items.length)) := by
  intro i hi j hj
  obtain ⟨hiY, hi⟩ := Finset.mem_filter.mp hi
  refine Finset.mem_filter.mpr ⟨hY i hiY j ((before_snoc_iff hi).mpr hj), ?_⟩
  obtain ⟨a, b, ha, hb, hji, -⟩ := hj
  omega

/-- The items that are done at the latest when those with `P` are. -/
structure Least (items : List (Item S L V)) (P : Nat → Prop) (X : Finset Nat) : Prop where
  lt : ∀ i ∈ X, i < items.length
  closed : Closed items X
  all : ∀ j, P j → j ∈ X
  least : ∀ Y, Closed items Y → (∀ j, P j → j ∈ Y) → X ⊆ Y

variable {P Q : Nat → Prop}

theorem Least.congr (h : Least items P X) (hPQ : ∀ j, P j ↔ Q j) : Least items Q X :=
  ⟨h.lt, h.closed, fun j hj => h.all j ((hPQ j).mpr hj),
    fun Y hY hQ => h.least Y hY fun j hj => hQ j ((hPQ j).mp hj)⟩

theorem Least.snoc (h : Least items P X) : Least (items ++ [x]) P X := by
  refine ⟨fun i hi => ?_, h.closed.snoc h.lt, h.all, fun Y hY hP => ?_⟩
  · have := h.lt i hi
    rw [List.length_append]
    omega
  · have hold := h.least _ hY.of_snoc fun j hj =>
      Finset.mem_filter.mpr ⟨hP j hj, h.lt j (h.all j hj)⟩
    exact hold.trans (Finset.filter_subset _ _)

/-- The end of a stream behind one more item, which waits for the items in `X'`. -/
theorem Least.push {X' : Finset Nat} {P' : Nat → Prop}
    (h : Least items (OnStream items x.stream items.length) X) (h' : Least items P' X')
    (hP' : ∀ j, P' j ↔ ∃ t n, x.target = some (t, n) ∧ OnStream items t n j) :
    Least (items ++ [x]) (OnStream (items ++ [x]) x.stream (items ++ [x]).length)
      (insert items.length (X ∪ X')) := by
  have hlen : (items ++ [x]).length = items.length + 1 := by simp
  have hbefore : ∀ j, Before (items ++ [x]) j items.length → j ∈ X ∪ X' := by
    intro j hj
    rcases before_last_iff.mp hj with hj | ⟨t, n, ht, hlt, hj⟩
    · exact Finset.mem_union_left _ (h.all j hj)
    · exact Finset.mem_union_right _ (h'.all j ((hP' j).mpr ⟨t, n, ht, hj⟩))
  refine ⟨fun i hi => ?_, fun i hi j hj => ?_, fun j hj => ?_, fun Y hY hall => ?_⟩
  · rw [hlen]
    rcases Finset.mem_insert.mp hi with rfl | hi
    · omega
    · rcases Finset.mem_union.mp hi with hi | hi
      · exact Nat.lt_succ_of_lt (h.lt i hi)
      · exact Nat.lt_succ_of_lt (h'.lt i hi)
  · refine Finset.mem_insert_of_mem ?_
    rcases Finset.mem_insert.mp hi with rfl | hi
    · exact hbefore j hj
    · exact ((h.closed.union h'.closed).snoc fun i hi => by
        rcases Finset.mem_union.mp hi with hi | hi
        · exact h.lt i hi
        · exact h'.lt i hi) i hi j hj
  · obtain ⟨hjn, y, hy, hys⟩ := hj
    rcases Nat.lt_or_eq_of_le (Nat.le_of_lt_succ (hlen ▸ hjn)) with hlt | rfl
    · rw [getElem?_snoc_lt hlt] at hy
      exact Finset.mem_insert_of_mem (Finset.mem_union_left _ (h.all j ⟨hlt, y, hy, hys⟩))
    · exact Finset.mem_insert_self _ _
  · have hlast : items.length ∈ Y := hall _ ⟨by omega, x, by simp, rfl⟩
    have hall' : ∀ j, Before (items ++ [x]) j items.length → j ∈ Y := hY _ hlast
    refine Finset.insert_subset hlast (Finset.union_subset ?_ ?_)
    · exact h.snoc.least Y hY fun j hj => hall' j (before_last_iff.mpr (.inl hj))
    · refine h'.snoc.least Y hY fun j hj => hall' j (before_last_iff.mpr (.inr ?_))
      obtain ⟨t, n, ht, hj'⟩ := (hP' j).mp hj
      exact ⟨t, n, ht, h'.lt j (h'.all j hj), hj'⟩

/-! ## What the host knows -/

/-- What is known is right, and no more than what follows from the calls. -/
structure Inv (q : Queue S E L V) (k : Known S E L) : Prop where
  size : k.size = q.items.length
  event_le : ∀ e s n, q.event e = some (s, n) → n ≤ q.items.length
  tail : ∀ s, Least q.items (OnStream q.items s q.items.length) (k.tail s)
  mark : ∀ e, Least q.items (fun j => ∃ s n, q.event e = some (s, n) ∧ OnStream q.items s n j)
    (k.mark e)
  host_lt : ∀ i ∈ k.host, i < q.items.length
  host_closed : Closed q.items k.host

theorem least_empty {items : List (Item S L V)} {P : Nat → Prop} (h : ∀ j, ¬P j) :
    Least items P ∅ :=
  ⟨nofun, nofun, fun j hj => absurd hj (h j), fun _ _ _ => Finset.empty_subset _⟩

theorem Inv.empty : Inv (Queue.empty : Queue S E L V) Known.empty := by
  refine ⟨rfl, nofun, fun s => least_empty ?_, fun e => least_empty ?_, nofun, nofun⟩
  · rintro j ⟨hj, -⟩
    exact absurd hj (Nat.not_lt_zero j)
  · rintro j ⟨s, n, he, -⟩
    exact absurd he (by simp [Queue.empty])

theorem Least.event_snoc {items : List (Item S L V)} {event : E → Option (S × Nat)} {e : E}
    {X : Finset Nat} (h : Least items
      (fun j => ∃ s n, event e = some (s, n) ∧ OnStream items s n j) X)
    (hle : ∀ s n, event e = some (s, n) → n ≤ items.length) (x : Item S L V) :
    Least (items ++ [x])
      (fun j => ∃ s n, event e = some (s, n) ∧ OnStream (items ++ [x]) s n j) X := by
  refine h.snoc.congr fun j => exists_congr fun s => exists_congr fun n => ?_
  exact and_congr_right fun he => (onStream_snoc_iff (hle s n he)).symm

variable [DecidableEq S] {q : Queue S E L V} {k : Known S E L}

/-- One more item. -/
theorem Inv.push (h : Inv q k) (x : Item S L V) {X : Finset Nat} {P : Nat → Prop}
    (hX : Least q.items P X)
    (hP : ∀ j, P j ↔ ∃ t n, x.target = some (t, n) ∧ OnStream q.items t n j)
    {k' : Known S E L} (hsize : k'.size = k.size + 1)
    (htail : k'.tail = Function.update k.tail x.stream (insert k.size (k.tail x.stream ∪ X)))
    (hmark : k'.mark = k.mark) (hhost : k'.host = k.host) :
    Inv { q with items := q.items ++ [x] } k' := by
  have hlen : (q.items ++ [x]).length = q.items.length + 1 := by simp
  refine ⟨?_, fun e s n he => ?_, fun s => ?_, fun e => ?_, fun i hi => ?_, ?_⟩
  · rw [hsize, h.size, hlen]
  · have := h.event_le e s n he
    dsimp only
    omega
  · rw [htail]
    by_cases hs : s = x.stream
    · subst hs
      rw [Function.update_self, h.size]
      exact (h.tail x.stream).push hX hP
    · rw [Function.update_of_ne hs]
      refine (h.tail s).snoc.congr fun j => ?_
      constructor
      · rintro ⟨hj, y, hy, hys⟩
        exact ⟨by dsimp only; omega, y, by dsimp only; rwa [getElem?_snoc_lt hj], hys⟩
      · rintro ⟨hj, y, hy, hys⟩
        rcases Nat.lt_or_eq_of_le (Nat.le_of_lt_succ (hlen ▸ hj)) with hlt | rfl
        · exact ⟨hlt, y, by rwa [getElem?_snoc_lt hlt] at hy, hys⟩
        · obtain rfl : x = y := by simpa using hy
          exact absurd hys.symm hs
  · rw [hmark]
    exact (h.mark e).event_snoc (h.event_le e) x
  · rw [hhost] at hi
    have := h.host_lt i hi
    dsimp only
    omega
  · rw [hhost]
    exact h.host_closed.snoc h.host_lt

variable [DecidableEq E] [DecidableEq L]

theorem Inv.call (h : Inv q k) (c : Call S E L V) : Inv (q.call c) (k.call c) := by
  cases c with
  | queue s w =>
    refine h.push (.work s w) (least_empty (P := fun _ => False) fun _ => id) ?_ rfl ?_ rfl rfl
    · simp [Item.target]
    · rw [Finset.union_empty]
      rfl
  | record e s =>
    refine ⟨h.size, fun e' s' n he => ?_, h.tail, fun e' => ?_, h.host_lt, h.host_closed⟩
    · simp only [Queue.call] at he
      by_cases hee : e' = e
      · subst hee
        rw [Function.update_self] at he
        exact le_of_eq (Prod.mk.inj (Option.some.inj he)).2.symm
      · rw [Function.update_of_ne hee] at he
        exact h.event_le e' s' n he
    · simp only [Queue.call, Known.call]
      by_cases hee : e' = e
      · subst hee
        simp only [Function.update_self]
        refine (h.tail s).congr fun j => ⟨fun hj => ⟨s, _, rfl, hj⟩, ?_⟩
        rintro ⟨s', n, he, hj⟩
        obtain ⟨rfl, rfl⟩ := Prod.mk.inj (Option.some.inj he)
        exact hj
      · simp only [Function.update_of_ne hee]
        exact h.mark e'
  | wait s e =>
    refine h.push (q.waiting s e) (h.mark e) (q.waiting_target s e) rfl ?_ rfl rfl
    rw [q.waiting_stream]
    rfl
  | syncEvent e =>
    refine ⟨h.size, h.event_le, h.tail, h.mark, fun i hi => ?_, h.host_closed.union (h.mark e).closed⟩
    rcases Finset.mem_union.mp hi with hi | hi
    · exact h.host_lt i hi
    · exact (h.mark e).lt i hi
  | syncStream s =>
    refine ⟨h.size, h.event_le, h.tail, h.mark, fun i hi => ?_, h.host_closed.union (h.tail s).closed⟩
    rcases Finset.mem_union.mp hi with hi | hi
    · exact h.host_lt i hi
    · exact (h.tail s).lt i hi

def Known.of (cs : List (Call S E L V)) : Known S E L := Known.empty.run cs

theorem Known.of_snoc (cs : List (Call S E L V)) (c : Call S E L V) :
    Known.of (cs ++ [c]) = (Known.of cs).call c := by
  rw [Known.of, Known.run_append]
  rfl

section

omit [DecidableEq S]

variable {m₀ : L → V} {cs : List (Call S E L V)} {st : State S E L V}

/-- What is done is closed. -/
theorem Exec.done_closed (h : Exec m₀ cs st) :
    Closed st.queue.items st.done ∧ ∀ i ∈ st.done, i < st.queue.items.length := by
  induction h with
  | start => exact ⟨nofun, nofun⟩
  | @call cs st c h hc ih =>
    obtain ⟨hclosed, hlt⟩ := ih
    cases c with
    | queue s w => 
      exact ⟨hclosed.snoc hlt, fun i hi => by
        have := hlt i hi
        simp only [Queue.call, List.length_append]
        omega⟩
    | wait s e =>
      exact ⟨hclosed.snoc hlt, fun i hi => by
        have := hlt i hi
        simp only [Queue.call, List.length_append]
        omega⟩
    | record | syncEvent | syncStream => exact ⟨hclosed, hlt⟩
  | @complete cs st i x h hx hi hbefore ih =>
    obtain ⟨hclosed, hlt⟩ := ih
    refine ⟨fun j hj a ha => ?_, fun j hj => ?_⟩
    · rcases Finset.mem_insert.mp hj with rfl | hj
      · exact Finset.mem_insert_of_mem (hbefore a ha)
      · exact Finset.mem_insert_of_mem (hclosed j hj a ha)
    · rcases Finset.mem_insert.mp hj with rfl | hj
      · exact (List.getElem?_eq_some_iff.mp hx).1
      · exact hlt j hj

end

variable {m₀ : L → V} {cs : List (Call S E L V)} {st : State S E L V}

omit [DecidableEq S] in
theorem Exec.queue_eq (h : Exec m₀ cs st) : st.queue = queued cs := by
  induction h with
  | start => rfl
  | call c _ _ ih => rw [queued, List.foldl_append, ← queued, ← ih, List.foldl_cons, List.foldl_nil]
  | complete _ _ _ _ ih => exact ih

theorem inv_of (cs : List (Call S E L V)) : Inv (queued cs) (Known.of cs) := by
  induction cs using List.reverseRecOn with
  | nil => exact Inv.empty
  | append_singleton cs c ih =>
    rw [Known.of_snoc, queued, List.foldl_append]
    exact ih.call c

theorem Exec.inv (h : Exec m₀ cs st) : Inv st.queue (Known.of cs) := h.queue_eq ▸ inv_of cs

/-- What the host knows to be done is done. -/
theorem host_subset_done (h : Exec m₀ cs st) : (Known.of cs).host ⊆ st.done := by
  induction h with
  | start => exact Finset.empty_subset _
  | @call cs st c h hc ih =>
    rw [Known.of_snoc]
    have hinv := h.inv
    have hclosed := h.done_closed.1
    cases c with
    | queue | record | wait => exact ih
    | syncEvent e =>
      refine Finset.union_subset ih ((hinv.mark e).least _ hclosed ?_)
      rintro j ⟨s, n, he, hj⟩
      exact hc s n he j hj
    | syncStream s => exact Finset.union_subset ih ((hinv.tail s).least _ hclosed hc)
  | complete _ _ _ _ ih => exact ih.trans (Finset.subset_insert _ _)

variable {m₀ : L → V} {cs : List (Call S E L V)} {st : State S E L V} {q : Queue S E L V}
  {k : Known S E L}

/-! ## Memory -/

section Replay

omit [DecidableEq S] [DecidableEq E]

variable {items : List (Item S L V)} {done : Finset Nat} {x : Item S L V} {m : L → V}

end Replay

/-! ## Traces without races -/

/-- What an item touches has been touched only by what is done when it starts. -/
def Known.safe (k : Known S E L) : Call S E L V → Prop
  | .queue s w => ∀ l ∈ w.locs, k.touched l ⊆ k.tail s ∪ k.host
  | _ => True

def SafeFrom (k : Known S E L) : List (Call S E L V) → Prop
  | [] => True
  | c :: cs => k.safe c ∧ SafeFrom (k.call c) cs

def Safe (cs : List (Call S E L V)) : Prop := SafeFrom Known.empty cs

theorem safeFrom_append {cs' : List (Call S E L V)} :
    SafeFrom k (cs ++ cs') ↔ SafeFrom k cs ∧ SafeFrom (k.run cs) cs' := by
  induction cs generalizing k with
  | nil => simp [SafeFrom, Known.run]
  | cons c cs ih =>
    simp only [List.cons_append, SafeFrom, ih, and_assoc]
    rfl

/-- What is kept of the items: what they touch, and what is done before they start. -/
structure Sound (q : Queue S E L V) (k : Known S E L) : Prop where
  inv : Inv q k
  touched : ∀ i x l, q.items[i]? = some x → l ∈ x.locs → i ∈ k.touched l
  prior : ∀ i x, q.items[i]? = some x → ∀ Y, Closed q.items Y →
    (∀ j, Before q.items j i → j ∈ Y) → k.host ⊆ Y → k.prior i ⊆ Y
  ordered : ∀ i j x y l, i < j → q.items[i]? = some x → q.items[j]? = some y → l ∈ x.locs →
    l ∈ y.locs → i ∈ k.prior j

omit [DecidableEq S] [DecidableEq E] [DecidableEq L] in
theorem Sound.empty : Sound (Queue.empty : Queue S E L V) Known.empty :=
  ⟨Inv.empty, fun i x l hx => absurd hx (by simp [Queue.empty]),
    fun i x hx => absurd hx (by simp [Queue.empty]),
    fun i j x y l _ hx => absurd hx (by simp [Queue.empty])⟩

omit [DecidableEq S] [DecidableEq E] in
/-- One more item. -/
theorem Sound.push (h : Sound q k) (x : Item S L V) {X : Finset Nat} {P : Nat → Prop}
    (hX : Least q.items P X)
    (hP : ∀ j, P j ↔ ∃ t n, x.target = some (t, n) ∧ OnStream q.items t n j)
    {k' : Known S E L} (hinv : Inv { q with items := q.items ++ [x] } k')
    (hhost : k'.host = k.host)
    (htouched : k'.touched = fun l => if l ∈ x.locs then insert k.size (k.touched l)
      else k.touched l)
    (hprior : k'.prior = Function.update k.prior k.size (k.tail x.stream ∪ X ∪ k.host))
    (hsafe : ∀ l ∈ x.locs, k.touched l ⊆ k.tail x.stream ∪ k.host) :
    Sound { q with items := q.items ++ [x] } k' := by
  have hsize := h.inv.size
  have hcases : ∀ {i y}, (q.items ++ [x])[i]? = some y →
      q.items[i]? = some y ∧ i < q.items.length ∨ i = q.items.length ∧ y = x := by
    intro i y hy
    rcases Nat.lt_trichotomy i q.items.length with hi | rfl | hi
    · exact .inl ⟨by rwa [getElem?_snoc_lt hi] at hy, hi⟩
    · exact .inr ⟨rfl, by simpa using hy.symm⟩
    · have hlt := (List.getElem?_eq_some_iff.mp hy).1
      simp only [List.length_append, List.length_singleton] at hlt
      omega
  refine ⟨hinv, fun i y l hy hl => ?_, fun i y hy Y hY hbefore hhostY => ?_,
    fun i j y z l hij hy hz hly hlz => ?_⟩
  · rw [htouched]
    dsimp only
    rcases hcases hy with ⟨hy, -⟩ | ⟨rfl, rfl⟩
    · have := h.touched i y l hy hl
      split
      · exact Finset.mem_insert_of_mem this
      · exact this
    · rw [if_pos hl, hsize]
      exact Finset.mem_insert_self _ _
  · rw [hhost] at hhostY
    rw [hprior]
    rcases hcases hy with ⟨hy, hi⟩ | ⟨rfl, rfl⟩
    · rw [Function.update_of_ne (by omega)]
      refine (h.prior i y hy _ hY.of_snoc (fun j hj => ?_) fun j hj => ?_).trans
        (Finset.filter_subset _ _)
      · refine Finset.mem_filter.mpr ⟨hbefore j ((before_snoc_iff hi).mpr hj), ?_⟩
        obtain ⟨_, _, _, _, hji, _⟩ := hj
        omega
      · exact Finset.mem_filter.mpr ⟨hhostY hj, h.inv.host_lt j hj⟩
    · rw [← hsize, Function.update_self]
      refine Finset.union_subset (Finset.union_subset ?_ ?_) hhostY
      · exact (h.inv.tail y.stream).snoc.least Y hY fun j hj =>
          hbefore j (before_last_iff.mpr (.inl hj))
      · refine hX.snoc.least Y hY fun j hj => hbefore j (before_last_iff.mpr (.inr ?_))
        obtain ⟨t, n, ht, hj'⟩ := (hP j).mp hj
        exact ⟨t, n, ht, hX.lt j (hX.all j hj), hj'⟩
  · rw [hprior]
    rcases hcases hz with ⟨hz, hj⟩ | ⟨rfl, rfl⟩
    · rw [Function.update_of_ne (by omega)]
      rcases hcases hy with ⟨hy, -⟩ | ⟨rfl, rfl⟩
      · exact h.ordered i j y z l hij hy hz hly hlz
      · omega
    · rcases hcases hy with ⟨hy, -⟩ | ⟨rfl, rfl⟩
      · rw [← hsize, Function.update_self]
        rcases Finset.mem_union.mp (hsafe l hlz (h.touched i y l hy hly)) with hi | hi
        · exact Finset.mem_union_left _ (Finset.mem_union_left _ hi)
        · exact Finset.mem_union_right _ hi
      · omega

theorem Sound.call (h : Sound q k) {c : Call S E L V} (hsafe : k.safe c) :
    Sound (q.call c) (k.call c) := by
  have hinv := h.inv.call c
  cases c with
  | queue s w =>
    refine h.push (.work s w) (least_empty (P := fun _ => False) fun _ => id) ?_ hinv rfl rfl ?_
      hsafe
    · simp [Item.target]
    · rw [Finset.union_empty]
      rfl
  | record e s => exact ⟨hinv, h.touched, h.prior, h.ordered⟩
  | wait s e =>
    have hlocs := q.waiting_locs s e
    refine h.push (q.waiting s e) (h.inv.mark e) (q.waiting_target s e) hinv rfl ?_ ?_ ?_
    · rw [hlocs]
      rfl
    · rw [q.waiting_stream]
      rfl
    · rw [hlocs]
      exact nofun
  | syncEvent e =>
    exact ⟨hinv, h.touched, fun i x hx Y hY hbefore hhost => h.prior i x hx Y hY hbefore
      (Finset.union_subset_left hhost), h.ordered⟩
  | syncStream s =>
    exact ⟨hinv, h.touched, fun i x hx Y hY hbefore hhost => h.prior i x hx Y hY hbefore
      (Finset.union_subset_left hhost), h.ordered⟩

theorem sound_of (hsafe : Safe cs) : Sound (queued cs) (Known.of cs) := by
  induction cs using List.reverseRecOn with
  | nil => exact Sound.empty
  | append_singleton cs c ih =>
    obtain ⟨hcs, hc, -⟩ := safeFrom_append.mp hsafe
    rw [Known.of_snoc, queued, List.foldl_append]
    exact (ih hcs).call hc

theorem Exec.sound (h : Exec m₀ cs st) (hsafe : Safe cs) : Sound st.queue (Known.of cs) :=
  h.queue_eq ▸ sound_of hsafe

theorem Known.call_prior {i : Nat} (hi : i < k.size) (c : Call S E L V) :
    (k.call c).prior i = k.prior i := by
  cases c with
  | queue | wait => exact Function.update_of_ne (Nat.ne_of_lt hi) _ _
  | record | syncEvent | syncStream => rfl

/-- What is done before an item starts is done once the item is. -/
theorem Exec.prior_subset (h : Exec m₀ cs st) (hsafe : Safe cs) :
    ∀ i ∈ st.done, (Known.of cs).prior i ⊆ st.done := by
  induction h with
  | start => exact nofun
  | @call cs st c h hc ih =>
    rw [Known.of_snoc]
    intro i hi
    rw [Known.call_prior (h.inv.size ▸ h.done_closed.2 i hi)]
    exact ih (safeFrom_append.mp hsafe).1 i hi
  | @complete cs st i x h hx hi hbefore ih =>
    intro j hj
    refine Finset.Subset.trans ?_ (Finset.subset_insert _ _)
    rcases Finset.mem_insert.mp hj with rfl | hj
    · exact (h.sound hsafe).prior j x hx _ h.done_closed.1 hbefore (host_subset_done h)
    · exact ih hsafe j hj

/-- An item that is done has behind it the earlier ones that touch what it touches. -/
theorem Exec.conflict_done (h : Exec m₀ cs st) (hsafe : Safe cs) {i j : Nat} {x y : Item S L V}
    {l : L} (hij : i < j) (hx : st.queue.items[i]? = some x) (hy : st.queue.items[j]? = some y)
    (hlx : l ∈ x.locs) (hly : l ∈ y.locs) (hj : j ∈ st.done) : i ∈ st.done :=
  h.prior_subset hsafe j hj ((h.sound hsafe).ordered i j x y l hij hx hy hlx hly)

/-! ## The calls in their order -/

def Call.run (m : L → V) : Call S E L V → L → V
  | .queue _ w => w.run m
  | _ => m

/-- The memory after the calls, with each item done at once. -/
def sequential (cs : List (Call S E L V)) (m : L → V) : L → V := cs.foldl Call.run m

section

omit [DecidableEq S] [DecidableEq E]

theorem sequential_append (cs cs' : List (Call S E L V)) (m : L → V) :
    sequential (cs ++ cs') m = sequential cs' (sequential cs m) := List.foldl_append

theorem sequential_cons (c : Call S E L V) (cs : List (Call S E L V)) (m : L → V) :
    sequential (c :: cs) m = sequential cs (c.run m) := rfl

theorem Work.run_of_not_mem {w : Work L V} {l : L} (h : l ∉ w.locs) (m : L → V) :
    w.run m l = m l := by
  cases w with
  | assign target sources f =>
    have hne : l ≠ target := fun e => h (e ▸ List.mem_cons_self : l ∈ target :: sources)
    exact Function.update_of_ne hne _ _
  | signal value => rfl

end

/-- The call does nothing with the location. -/
def Call.Avoids (l : L) : Call S E L V → Prop
  | .queue _ w => l ∉ w.locs
  | _ => True

omit [DecidableEq S] [DecidableEq E] in
theorem sequential_of_avoids {cs : List (Call S E L V)} {l : L} (h : ∀ c ∈ cs, c.Avoids l)
    (m : L → V) : sequential cs m l = m l := by
  induction cs generalizing m with
  | nil => rfl
  | cons c cs ih =>
    rw [sequential_cons, ih fun c' hc' => h c' (List.mem_cons_of_mem _ hc')]
    have hc := h c List.mem_cons_self
    cases c with
    | queue s w => exact Work.run_of_not_mem hc m
    | record | wait | syncEvent | syncStream => rfl

theorem exists_own {α : Type*} {xs : List α} {x : α} (hx : x ∈ xs) (hnodup : xs.Nodup) :
    ∃ ys zs, xs = ys ++ x :: zs ∧ ∀ y, y ∈ ys ∨ y ∈ zs → y ∈ xs ∧ y ≠ x := by
  obtain ⟨ys, zs, rfl⟩ := List.append_of_mem hx
  simp only [List.nodup_append, List.nodup_cons, List.mem_cons] at hnodup
  refine ⟨ys, zs, rfl, fun y h => ⟨?_, ?_⟩⟩
  · rw [List.mem_append, List.mem_cons]
    exact h.imp_right .inr
  · rintro rfl
    exact h.elim (fun h => hnodup.2.2 y h y (.inl rfl) rfl) hnodup.2.1.1

omit [DecidableEq S] [DecidableEq E] in
theorem sequential_flatMap {α : Type*} {xs : List α} {f : α → List (Call S E L V)}
    {P : (L → V) → Prop} (h : ∀ x ∈ xs, ∀ m, P m → P (sequential (f x) m)) {m : L → V}
    (hm : P m) : P (sequential (xs.flatMap f) m) := by
  induction xs generalizing m with
  | nil => exact hm
  | cons x xs ih =>
    rw [List.flatMap_cons, sequential_append]
    exact ih (fun y hy => h y (List.mem_cons_of_mem _ hy)) (h x List.mem_cons_self m hm)

omit [DecidableEq S] [DecidableEq E] in
/-- One of the elements does what is wanted, and the others leave it alone. -/
theorem sequential_flatMap_own {α : Type*} {xs : List α} {x : α} {f : α → List (Call S E L V)}
    {P Q : (L → V) → Prop} (hx : x ∈ xs) (hnodup : xs.Nodup)
    (hbefore : ∀ y ∈ xs, y ≠ x → ∀ m, P m → P (sequential (f y) m))
    (hown : ∀ m, P m → Q (sequential (f x) m))
    (hafter : ∀ y ∈ xs, y ≠ x → ∀ m, Q m → Q (sequential (f y) m)) {m : L → V} (hm : P m) :
    Q (sequential (xs.flatMap f) m) := by
  obtain ⟨ys, zs, hxs, hne⟩ := exists_own hx hnodup
  rw [hxs, List.flatMap_append, List.flatMap_cons, sequential_append, sequential_append]
  have hP := sequential_flatMap (fun y h => hbefore y (hne y (.inl h)).1 (hne y (.inl h)).2) hm
  exact sequential_flatMap (fun y h => hafter y (hne y (.inr h)).1 (hne y (.inr h)).2) (hown _ hP)

/-! ## One location through a trace -/

/-- Where something is known from: behind a stream or an event, or by the host. -/
inductive View (S E : Type*) where
  | stream (s : S)
  | event (e : E)
  | host
deriving DecidableEq

def Known.view (k : Known S E L) : View S E → Finset Nat
  | .stream s => k.tail s
  | .event e => k.mark e
  | .host => k.host

/-- All that touches the location is known from each of the views. -/
def Covers (k : Known S E L) (l : L) (C : Set (View S E)) : Prop :=
  ∀ v ∈ C, k.touched l ⊆ k.view v ∪ k.host

/-- What covers a location after a call. -/
def cover (l : L) (C : Set (View S E)) : Call S E L V → Set (View S E)
  | .queue s w => if l ∈ w.locs then {.stream s} else C
  | .record e s => {v | v = .event e ∧ .stream s ∈ C ∨ v ≠ .event e ∧ v ∈ C}
  | .wait s e => {v | v ∈ C ∨ v = .stream s ∧ .event e ∈ C}
  | .syncEvent e => {v | v ∈ C ∨ .event e ∈ C}
  | .syncStream s => {v | v ∈ C ∨ .stream s ∈ C}

def Allowed (l : L) (C : Set (View S E)) : Call S E L V → Prop
  | .queue s w => l ∈ w.locs → .stream s ∈ C
  | _ => True

/-- From `C`, the calls are safe for the location and leave at least `C'` behind. -/
def Follows (l : L) (C : Set (View S E)) : List (Call S E L V) → Set (View S E) → Prop
  | [], C' => C' ⊆ C
  | c :: cs, C' => Allowed l C c ∧ Follows l (cover l C c) cs C'

variable {l : L} {C C' C'' D : Set (View S E)} {c : Call S E L V}

omit [DecidableEq S] [DecidableEq E] [DecidableEq L] in
theorem covers_empty : Covers (Known.empty : Known S E L) l C := fun _ _ => Finset.empty_subset _

theorem Covers.call (h : Covers k l C) (hc : Allowed l C c) :
    Covers (k.call c) l (cover l C c) := by
  intro v hv i hi
  cases c with
  | queue s w =>
    simp only [cover] at hv
    simp only [Known.call] at hi
    by_cases hl : l ∈ w.locs
    · rw [if_pos hl] at hv hi
      subst hv
      simp only [Known.call, Known.view, Function.update_self]
      rcases Finset.mem_insert.mp hi with rfl | hi
      · exact Finset.mem_union_left _ (Finset.mem_insert_self _ _)
      · refine Finset.union_subset_union_left (Finset.subset_insert _ _) ?_
        exact h _ (hc hl) hi
    · rw [if_neg hl] at hv hi
      have hold := h v hv hi
      cases v with
      | stream t =>
        simp only [Known.call, Known.view] at hold ⊢
        by_cases hts : t = s
        · subst hts
          rw [Function.update_self]
          exact Finset.union_subset_union_left (Finset.subset_insert _ _) hold
        · rwa [Function.update_of_ne hts]
      | event | host => exact hold
  | record e s =>
    rcases hv with ⟨rfl, hv⟩ | ⟨hve, hv⟩
    · simp only [Known.call, Known.view, Function.update_self]
      exact h _ hv hi
    · have hold := h v hv hi
      cases v with
      | event e' =>
        simp only [Known.call, Known.view] at hold ⊢
        rwa [Function.update_of_ne fun he => hve (by rw [he])]
      | stream | host => exact hold
  | wait s e =>
    have hgrow : k.tail s ∪ k.mark e ⊆ (k.call (.wait s e : Call S E L V)).tail s := by
      simp only [Known.call, Function.update_self]
      exact Finset.subset_insert _ _
    rcases hv with hv | ⟨rfl, hv⟩
    · have hold := h v hv hi
      cases v with
      | stream t =>
        by_cases hts : t = s
        · subst hts
          exact Finset.union_subset_union_left (Finset.union_subset_left hgrow) hold
        · simp only [Known.call, Known.view] at hold ⊢
          rwa [Function.update_of_ne hts]
      | event | host => exact hold
    · exact Finset.union_subset_union_left (Finset.union_subset_right hgrow) (h _ hv hi)
  | syncEvent e =>
    have hgrow : k.host ⊆ k.host ∪ k.mark e := Finset.subset_union_left
    rcases hv with hv | hv
    · have hold := h v hv hi
      cases v with
      | stream | event => exact Finset.union_subset_union_right hgrow hold
      | host => exact Finset.union_subset_union hgrow hgrow hold
    · refine Finset.mem_union_right _ ?_
      rw [Known.call, Finset.union_comm]
      exact h _ hv hi
  | syncStream s =>
    have hgrow : k.host ⊆ k.host ∪ k.tail s := Finset.subset_union_left
    rcases hv with hv | hv
    · have hold := h v hv hi
      cases v with
      | stream | event => exact Finset.union_subset_union_right hgrow hold
      | host => exact Finset.union_subset_union hgrow hgrow hold
    · refine Finset.mem_union_right _ ?_
      rw [Known.call, Finset.union_comm]
      exact h _ hv hi

omit [DecidableEq S] [DecidableEq E] in
theorem cover_mono (h : C ⊆ D) (c : Call S E L V) : cover l C c ⊆ cover l D c := by
  intro v hv
  cases c with
  | queue s w =>
    simp only [cover] at hv ⊢
    by_cases hl : l ∈ w.locs
    · rwa [if_pos hl] at hv ⊢
    · rw [if_neg hl] at hv ⊢
      exact h hv
  | record e s => exact hv.imp (fun hv => ⟨hv.1, h hv.2⟩) fun hv => ⟨hv.1, h hv.2⟩
  | wait s e => exact hv.imp (fun hv => h hv) fun hv => ⟨hv.1, h hv.2⟩
  | syncEvent | syncStream => exact hv.imp (fun hv => h hv) fun hv => h hv

omit [DecidableEq S] [DecidableEq E] [DecidableEq L] in
theorem Allowed.mono (hc : Allowed l C c) (h : C ⊆ D) : Allowed l D c := by
  cases c with
  | queue => exact fun hl => h (hc hl)
  | record | wait | syncEvent | syncStream => trivial

section

omit [DecidableEq S] [DecidableEq E]

theorem Follows.mono {cs : List (Call S E L V)} (h : Follows l C cs C') (hC : C ⊆ D)
    (hC' : C'' ⊆ C') : Follows l D cs C'' := by
  induction cs generalizing C D with
  | nil => exact hC'.trans (Set.Subset.trans h hC)
  | cons c cs ih => exact ⟨h.1.mono hC, ih h.2 (cover_mono hC c)⟩

theorem Follows.append {cs cs' : List (Call S E L V)} (h : Follows l C cs C')
    (h' : Follows l C' cs' C'') : Follows l C (cs ++ cs') C'' := by
  induction cs generalizing C with
  | nil => exact h'.mono h subset_rfl
  | cons c cs ih => exact ⟨h.1, ih h.2⟩

theorem Follows.flatMap {α : Type*} {xs : List α} {f : α → List (Call S E L V)}
    (h : ∀ x ∈ xs, Follows l C (f x) C) : Follows l C (xs.flatMap f) C := by
  induction xs with
  | nil => exact subset_rfl
  | cons x xs ih =>
    exact (h x List.mem_cons_self).append (ih fun y hy => h y (List.mem_cons_of_mem _ hy))

/-- The call does not touch the location, and leaves covering it what does. -/
def Call.Spares (l : L) (C : Set (View S E)) : Call S E L V → Prop
  | .queue _ w => l ∉ w.locs
  | .record e s => .event e ∈ C → .stream s ∈ C
  | _ => True

omit [DecidableEq L] in
theorem Call.Spares.avoids (h : c.Spares l C) : c.Avoids l := by
  cases c with
  | queue => exact h
  | record | wait | syncEvent | syncStream => trivial

theorem follows_of_spares {cs : List (Call S E L V)} (h : ∀ c ∈ cs, c.Spares l C) :
    Follows l C cs C := by
  induction cs with
  | nil => exact subset_rfl
  | cons c cs ih =>
    have hc := h c List.mem_cons_self
    have hrest := ih fun c' hc' => h c' (List.mem_cons_of_mem _ hc')
    cases c with
    | queue s w =>
      refine ⟨fun hl => absurd hl hc, ?_⟩
      rwa [cover, if_neg hc]
    | record e s =>
      refine ⟨trivial, hrest.mono (fun v hv => ?_) subset_rfl⟩
      by_cases hve : v = .event e
      · exact .inl ⟨hve, hc (hve ▸ hv)⟩
      · exact .inr ⟨hve, hv⟩
    | wait | syncEvent | syncStream => exact ⟨trivial, hrest.mono (fun v hv => .inl hv) subset_rfl⟩

end

theorem safeFrom_of_follows {cs : List (Call S E L V)} {C : L → Set (View S E)}
    (hk : ∀ l, Covers k l (C l)) (h : ∀ l, ∃ C', Follows l (C l) cs C') : SafeFrom k cs := by
  induction cs generalizing k C with
  | nil => trivial
  | cons c cs ih =>
    refine ⟨?_, ih (C := fun l => cover l (C l) c) (fun l => ?_) fun l => ?_⟩
    · cases c with
      | queue s w =>
        intro l hl
        obtain ⟨C', hC'⟩ := h l
        exact hk l _ (hC'.1 hl)
      | record | wait | syncEvent | syncStream => trivial
    · obtain ⟨C', hC'⟩ := h l
      exact (hk l).call hC'.1
    · obtain ⟨C', hC'⟩ := h l
      exact ⟨C', hC'.2⟩

/-- A trace is safe when it is safe for each location. -/
theorem safe_of_follows {cs : List (Call S E L V)} (h : ∀ l, ∃ C', Follows l Set.univ cs C') :
    Safe cs := safeFrom_of_follows (fun _ => covers_empty) h

/-! ## One item through a trace -/

variable {A : Set (View S E)}

section

omit [DecidableEq S] [DecidableEq L]

end

end NssFactory.Streams
