import Mathlib.Data.List.Induction
import NssFactory.Cpu.Match
import NssFactory.Lib.LeastK

/-!
# The matches of a reference cube

`Matches` of `src/cpu/bm4d/bm4d.cpp` and the test before its `insert`. A list is kept sorted by
distance, a new entry goes behind those that are no farther, and `worst` spares the reading of
a list that is full: until then it is infinite, so that no infinite distance is ever a match.
`offer_fold` says what the list of a reference holds after its candidates, in whatever order
their places are numbered: the reference and the nearest, ties in the order of the offers.
-/

namespace NssFactory.Cpu.Bm4d

/-- `HUGE_VALF` -/
def hugeVal : F32 := 0x7f800000#32

/-- `-1.f`: the distance of the reference. -/
def minusOne : F32 := 0xbf800000#32

structure Entry (α : Type) where
  dist : F32
  pos : α
  deriving DecidableEq

/-- The matches of one reference: `dist` and `pos` up to its `count`, and its `worst`. -/
structure Matches (α : Type) where
  list : List (Entry α)
  worst : F32
  deriving DecidableEq

variable {α : Type}

/-- The distance of the last entry. -/
def lastDist (l : List (Entry α)) : F32 := (l.getLast?.map Entry.dist).getD hugeVal

/-- The entries from the last one down move up by one, while they are farther. -/
def shift (e : Entry α) : List (Entry α) → List (Entry α)
  | [] => [e]
  | last :: rest => if e.dist.lt last.dist then last :: shift e rest else e :: last :: rest

namespace Matches

variable (group : Nat) (m : Matches α)

def empty : Matches α := ⟨[], hugeVal⟩

def insert (e : Entry α) : Matches α :=
  if m.list.length = group ∧ e.dist.lt (lastDist m.list) = false then m
  else
    let kept := if m.list.length = group then m.list.dropLast else m.list
    let list := (shift e kept.reverse).reverse
    ⟨list, if kept.length + 1 = group then lastDist list else m.worst⟩

/-- The test of a candidate and its insertion. -/
def offer (limit : F32) (e : Entry α) : Matches α :=
  if e.dist.le limit && e.dist.lt m.worst then m.insert group e else m

/-- The list of a reference before its candidates. -/
def start (pos : α) : Matches α := empty.insert group ⟨minusOne, pos⟩

end Matches

/-! ## Places of another kind

Nothing but the distances decides where an entry goes. -/

section Map

variable {β : Type} (f : α → β)

def Entry.map (e : Entry α) : Entry β := ⟨e.dist, f e.pos⟩

def Matches.map (m : Matches α) : Matches β := ⟨m.list.map (Entry.map f), m.worst⟩

theorem lastDist_map (l : List (Entry α)) : lastDist (l.map (Entry.map f)) = lastDist l := by
  unfold lastDist
  rw [List.getLast?_map, Option.map_map]
  rfl

theorem shift_map (e : Entry α) (l : List (Entry α)) :
    shift (e.map f) (l.map (Entry.map f)) = (shift e l).map (Entry.map f) := by
  induction l with
  | nil => rfl
  | cons last rest ih =>
    rw [List.map_cons, shift, shift, ih]
    unfold Entry.map
    split <;> rfl

theorem insert_map (group : Nat) (m : Matches α) (e : Entry α) :
    (m.map f).insert group (e.map f) = (m.insert group e).map f := by
  have hlist : (m.map f).list = m.list.map (Entry.map f) := rfl
  have hworst : (m.map f).worst = m.worst := rfl
  have hdist : (e.map f).dist = e.dist := rfl
  unfold Matches.insert
  rw [hlist, hworst, hdist, lastDist_map, List.length_map]
  by_cases hout : m.list.length = group ∧ e.dist.lt (lastDist m.list) = false
  · rw [if_pos hout, if_pos hout]
  · have hkept : (if m.list.length = group then (m.list.map (Entry.map f)).dropLast else m.list.map (Entry.map f)) =
        (if m.list.length = group then m.list.dropLast else m.list).map (Entry.map f) := by
      split
      · exact List.map_dropLast.symm
      · rfl
    rw [if_neg hout, if_neg hout, hkept]
    generalize (if m.list.length = group then m.list.dropLast else m.list) = kept
    dsimp only
    rw [List.length_map, ← List.map_reverse, shift_map, ← List.map_reverse, lastDist_map]
    rfl

theorem offer_map (group : Nat) (limit : F32) (m : Matches α) (e : Entry α) :
    (m.map f).offer group limit (e.map f) = (m.offer group limit e).map f := by
  have hworst : (m.map f).worst = m.worst := rfl
  have hdist : (e.map f).dist = e.dist := rfl
  unfold Matches.offer
  rw [hworst, hdist, insert_map]
  split <;> rfl

theorem offers_map (group : Nat) (limit : F32) (m : Matches α) (l : List (Entry α)) :
    (l.map (Entry.map f)).foldl (Matches.offer group · limit) (m.map f) =
      (l.foldl (Matches.offer group · limit) m).map f := by
  induction l generalizing m with
  | nil => rfl
  | cons e l ih => rw [List.map_cons, List.foldl_cons, List.foldl_cons, offer_map, ih]

theorem start_map (group : Nat) (pos : α) :
    Matches.start group (f pos) = (Matches.start group pos).map f := insert_map f group Matches.empty ⟨minusOne, pos⟩

end Map

/-! ## The order of the entries -/

/-- A sum of squares: neither a NaN nor negative. -/
structure Proper (d : F32) : Prop where
  number : d.isNaN = false
  sign : d.msb = false

theorem Proper.value_nonneg {d : F32} (h : Proper d) : 0 ≤ d.value := by
  unfold F32.value
  rw [h.sign, if_neg Bool.false_ne_true]
  exact Int.natCast_nonneg _

theorem lt_iff {a b : F32} (ha : a.isNaN = false) (hb : b.isNaN = false) :
    a.lt b = true ↔ a.value < b.value := by
  simp [F32.lt, ha, hb]

theorem hugeVal_number : hugeVal.isNaN = false := by decide

theorem minusOne_number : minusOne.isNaN = false := by decide

section Order

variable [LinearOrder α]

/-- Nearer first, and then the earlier place. -/
def key (e : Entry α) : Int ×ₗ α := toLex (e.dist.value, e.pos)

variable {e a b : Entry α} {l low high : List (Entry α)}

theorem key_lt : key a < key b ↔ a.dist.value < b.dist.value ∨ a.dist.value = b.dist.value ∧ a.pos < b.pos :=
  Prod.Lex.toLex_lt_toLex

/-- Where the new entry stands among the entries of a list, as `shift` compares it. -/
def Comparable (e : Entry α) (l : List (Entry α)) : Prop :=
  ∀ a ∈ l, if e.dist.lt a.dist then key e < key a else key a < key e

/-- The new entry goes between the nearer and the farther ones. -/
theorem shift_spec (hsorted : l.Pairwise fun a b => key a < key b) (h : Comparable e l) :
    ∃ low high, l = low ++ high ∧ (shift e l.reverse).reverse = low ++ e :: high ∧
      (∀ a ∈ low, key a < key e) ∧ ∀ a ∈ high, key e < key a := by
  induction l using List.reverseRecOn with
  | nil => exact ⟨[], [], rfl, rfl, by simp, by simp⟩
  | append_singleton l b ih =>
    obtain ⟨hl, -, hb⟩ := List.pairwise_append.mp hsorted
    have hlast := h b (by simp)
    rw [List.reverse_append, List.reverse_singleton, List.singleton_append, shift]
    cases hlt : e.dist.lt b.dist with
    | true =>
      rw [hlt, if_pos rfl] at hlast
      obtain ⟨low, high, rfl, hshift, hlow, hhigh⟩ := ih hl fun a ha => h a (by simp [ha])
      refine ⟨low, high ++ [b], by simp, ?_, hlow, ?_⟩
      · rw [if_pos rfl, List.reverse_cons, hshift]
        simp
      · intro a ha
        rcases List.mem_append.mp ha with ha | ha
        · exact hhigh a ha
        · exact List.mem_singleton.mp ha ▸ hlast
    | false =>
      rw [hlt, if_neg Bool.false_ne_true] at hlast
      refine ⟨l ++ [b], [], by simp, by simp, ?_, by simp⟩
      intro a ha
      rcases List.mem_append.mp ha with ha | ha
      · exact (hb a ha b (by simp)).trans hlast
      · exact List.mem_singleton.mp ha ▸ hlast

/-- The list after a shift is sorted and holds the new entry. -/
theorem shift_sorted (hsorted : l.Pairwise fun a b => key a < key b) (h : Comparable e l) :
    ((shift e l.reverse).reverse.Pairwise fun a b => key a < key b) ∧
      (e :: l).Perm (shift e l.reverse).reverse := by
  obtain ⟨low, high, rfl, hshift, hlow, hhigh⟩ := shift_spec hsorted h
  obtain ⟨hl, hh, hlh⟩ := List.pairwise_append.mp hsorted
  rw [hshift]
  refine ⟨List.pairwise_append.mpr ⟨hl, List.pairwise_cons.mpr ⟨hhigh, hh⟩, ?_⟩, List.perm_middle.symm⟩
  intro a ha b hb
  rcases List.mem_cons.mp hb with rfl | hb
  · exact hlow a ha
  · exact hlh a ha b hb

/-! ## What a list holds -/

/-- A distance that the threshold lets pass, and that `worst` does where the list is not full. -/
def accepted (limit : F32) (e : Entry α) : Bool := e.dist.le limit && e.dist.lt hugeVal

/-- After the candidates `seen` the list holds the nearest of the accepted ones. -/
structure Holds (group : Nat) (limit : F32) (reference : Entry α) (seen : List (Entry α)) (m : Matches α) : Prop where
  least : LeastK key group (reference :: seen.filter (accepted limit)) m.list
  sorted : m.list.Pairwise fun a b => key a < key b
  worst : m.worst = if m.list.length < group then hugeVal else lastDist m.list

variable {group : Nat} {limit : F32} {reference x : Entry α} {seen : List (Entry α)} {m : Matches α}

theorem lastDist_append (l : List (Entry α)) (e : Entry α) : lastDist (l ++ [e]) = e.dist := by
  simp [lastDist]

/-- An entry that is offered after those that are held. -/
structure Later (x : Entry α) (l : List (Entry α)) : Prop where
  proper : Proper x.dist
  number : ∀ a ∈ l, a.dist.isNaN = false
  after : ∀ a ∈ l, a.dist.value < 0 ∨ a.pos < x.pos

theorem Later.comparable (h : Later x l) : Comparable x l := by
  intro a ha
  have hvalue := h.proper.value_nonneg
  cases hlt : x.dist.lt a.dist with
  | true => exact key_lt.mpr (.inl ((lt_iff h.proper.number (h.number a ha)).mp hlt))
  | false =>
    have hle : ¬x.dist.value < a.dist.value := fun h' => by
      rw [(lt_iff h.proper.number (h.number a ha)).mpr h'] at hlt
      exact Bool.false_ne_true hlt.symm
    rw [if_neg Bool.false_ne_true]
    rcases h.after a ha with hneg | hpos
    · exact key_lt.mpr (.inl (by omega))
    · by_cases heq : a.dist.value = x.dist.value
      · exact key_lt.mpr (.inr ⟨heq, hpos⟩)
      · exact key_lt.mpr (.inl (by omega))

theorem Later.mono (h : Later x l) {l' : List (Entry α)} (hsub : l' ⊆ l) : Later x l' :=
  ⟨h.proper, fun a ha => h.number a (hsub ha), fun a ha => h.after a (hsub ha)⟩

/-- Insertion into a list that is not full. -/
theorem insert_room (hm : Holds group limit reference seen m) (hx : Later x m.list)
    (haccepted : accepted limit x = true) (hroom : m.list.length < group) :
    Holds group limit reference (seen ++ [x]) (m.insert group x) := by
  obtain ⟨hsorted, hperm⟩ := shift_sorted hm.sorted hx.comparable
  have hgrow := hm.least.grow (x := x) hroom
  have hlen := hperm.length_eq
  have hnext : (m.list ++ [x]).Perm (shift x m.list.reverse).reverse :=
    (List.perm_append_singleton x m.list).trans hperm
  unfold Matches.insert
  rw [if_neg (by omega), if_neg (by omega)]
  refine ⟨?_, hsorted, ?_⟩
  · rw [List.filter_append, List.filter_cons, haccepted, if_pos rfl, List.filter_nil]
    exact hgrow.perm hnext
  · have hworst := hm.worst
    rw [if_pos hroom] at hworst
    rw [List.length_cons] at hlen
    dsimp only
    by_cases hfull : m.list.length + 1 = group
    · rw [if_pos hfull, if_neg (by omega)]
    · rw [if_neg hfull, if_pos (by omega), hworst]

/-- Insertion into a full list, in place of the last entry. -/
theorem insert_full (hm : Holds group limit reference seen m) (hx : Later x m.list)
    (haccepted : accepted limit x = true) (hfull : m.list.length = group) (hgroup : 0 < group)
    (hlt : x.dist.lt m.worst = true) : Holds group limit reference (seen ++ [x]) (m.insert group x) := by
  obtain ⟨below, last, hlist⟩ : ∃ below last, m.list = below ++ [last] := by
    refine ⟨_, _, (List.dropLast_append_getLast (l := m.list) ?_).symm⟩
    intro hnil
    rw [hnil] at hfull
    simp at hfull
    omega
  have hworst : m.worst = last.dist := by
    rw [hm.worst, if_neg (by omega), hlist, lastDist_append]
  rw [hworst] at hlt
  have hsorted := hm.sorted
  rw [hlist] at hsorted
  obtain ⟨hbelow, -, hlast⟩ := List.pairwise_append.mp hsorted
  have hsub : below ⊆ m.list := by
    rw [hlist]
    exact List.subset_append_left _ _
  obtain ⟨hs, hperm⟩ := shift_sorted hbelow (hx.mono hsub).comparable
  have hxlast : key x < key last := by
    have hnumber := hx.number last (by simp [hlist])
    exact key_lt.mpr (.inl ((lt_iff hx.proper.number hnumber).mp hlt))
  have hw : m.list.Perm (last :: below) := by
    rw [hlist]
    exact List.perm_append_singleton last below
  have hreplace := hm.least.replace hfull hw (fun a ha => hlast a ha last (by simp)) hxlast
  have hlen := hperm.length_eq
  have hdrop : m.list.dropLast = below := by rw [hlist, List.dropLast_concat]
  have hlen' : below.length + 1 = group := by rw [← hfull, hlist]; simp
  unfold Matches.insert
  rw [if_neg, if_pos hfull, hdrop]
  · refine ⟨?_, hs, ?_⟩
    · rw [List.filter_append, List.filter_cons, haccepted, if_pos rfl, List.filter_nil]
      exact hreplace.perm hperm
    · rw [List.length_cons] at hlen
      dsimp only
      rw [if_pos hlen', if_neg (by omega)]
  · rw [hlist, lastDist_append]
    rintro ⟨-, hno⟩
    rw [hlt] at hno
    exact Bool.false_ne_true hno.symm

/-- An offer beyond a full list. -/
theorem keep_full (hm : Holds group limit reference seen m) (hx : Later x m.list)
    (haccepted : accepted limit x = true) (hfull : m.list.length = group) (hgroup : 0 < group)
    (hlt : x.dist.lt m.worst = false) : Holds group limit reference (seen ++ [x]) m := by
  have hsorted := hm.sorted
  have hnear : ∀ a ∈ m.list, key a < key x := by
    obtain ⟨below, last, hlist⟩ : ∃ below last, m.list = below ++ [last] := by
      refine ⟨_, _, (List.dropLast_append_getLast (l := m.list) ?_).symm⟩
      intro hnil
      rw [hnil] at hfull
      simp at hfull
      omega
    have hworst : m.worst = last.dist := by
      rw [hm.worst, if_neg (by omega), hlist, lastDist_append]
    have hlast := hx.comparable last (by simp [hlist])
    rw [hworst] at hlt
    rw [hlt, if_neg Bool.false_ne_true] at hlast
    rw [hlist] at hsorted ⊢
    intro a ha
    rcases List.mem_append.mp ha with ha | ha
    · exact ((List.pairwise_append.mp hsorted).2.2 a ha last (by simp)).trans hlast
    · exact List.mem_singleton.mp ha ▸ hlast
  refine ⟨?_, hsorted, hm.worst⟩
  rw [List.filter_append, List.filter_cons, haccepted, if_pos rfl, List.filter_nil]
  exact hm.least.keep hfull hnear

/-- What is not accepted is not inserted. -/
theorem keep_rejected (hm : Holds group limit reference seen m) (href : reference.dist.value < 0)
    (hx : Later x (reference :: seen)) (haccepted : accepted limit x = false) :
    m.offer group limit x = m ∧ Holds group limit reference (seen ++ [x]) m := by
  refine ⟨?_, ?_⟩
  · unfold Matches.offer
    rw [if_neg]
    intro h
    obtain ⟨hle, hlt⟩ := Bool.and_eq_true_iff.mp h
    have hfar : ¬x.dist.lt hugeVal = true := by
      intro h'
      rw [accepted, hle, h'] at haccepted
      exact Bool.false_ne_true haccepted.symm
    have hvalue := hx.proper.value_nonneg
    rw [lt_iff hx.proper.number hugeVal_number] at hfar
    rw [hm.worst] at hlt
    split at hlt
    · exact hfar ((lt_iff hx.proper.number hugeVal_number).mp hlt)
    · cases hlast : m.list.getLast? with
      | none =>
        rw [lastDist, hlast] at hlt
        exact hfar ((lt_iff hx.proper.number hugeVal_number).mp hlt)
      | some last =>
        have hmem := hm.least.subset (List.mem_of_getLast? hlast)
        have hnumber : last.dist.isNaN = false := by
          rcases List.mem_cons.mp hmem with rfl | hmem
          · exact hx.number _ List.mem_cons_self
          · exact hx.number _ (List.mem_cons_of_mem _ (List.mem_of_mem_filter hmem))
        rw [lastDist, hlast] at hlt
        have hlt : x.dist.value < last.dist.value := (lt_iff hx.proper.number hnumber).mp hlt
        rcases List.mem_cons.mp hmem with rfl | hmem
        · omega
        · have hnear := (Bool.and_eq_true_iff.mp (List.mem_filter.mp hmem).2).2
          have hnear := (lt_iff hnumber hugeVal_number).mp hnear
          omega
  · refine ⟨?_, hm.sorted, hm.worst⟩
    rw [List.filter_append, List.filter_cons, haccepted, if_neg Bool.false_ne_true, List.filter_nil,
      List.append_nil]
    exact hm.least

/-- One candidate. -/
theorem Holds.offer (hm : Holds group limit reference seen m) (hgroup : 0 < group)
    (href : reference.dist.value < 0) (hx : Later x (reference :: seen)) :
    Holds group limit reference (seen ++ [x]) (m.offer group limit x) := by
  cases haccepted : accepted limit x with
  | false =>
    obtain ⟨hsame, hholds⟩ := keep_rejected hm href hx haccepted
    rwa [hsame]
  | true =>
    obtain ⟨hle, hnear⟩ := Bool.and_eq_true_iff.mp haccepted
    have hsub : m.list ⊆ reference :: seen := by
      intro a ha
      rcases List.mem_cons.mp (hm.least.subset ha) with rfl | hmem
      · exact List.mem_cons_self
      · exact List.mem_cons_of_mem _ (List.mem_of_mem_filter hmem)
    have hlater := hx.mono hsub
    have hlen := hm.least.length_le
    unfold Matches.offer
    rw [hle, Bool.true_and]
    by_cases hroom : m.list.length < group
    · have hworst := hm.worst
      rw [if_pos hroom] at hworst
      rw [hworst, hnear, if_pos rfl]
      exact insert_room hm hlater haccepted hroom
    · have hfull : m.list.length = group := by omega
      cases hlt : x.dist.lt m.worst with
      | true => exact insert_full hm hlater haccepted hfull hgroup hlt
      | false => exact keep_full hm hlater haccepted hfull hgroup hlt

theorem start_holds (hgroup : 0 < group) (pos : α) :
    Holds group limit ⟨minusOne, pos⟩ [] (Matches.start group pos) := by
  have hstart : Matches.start group pos = ⟨[⟨minusOne, pos⟩], if 0 + 1 = group then minusOne else hugeVal⟩ := by
    unfold Matches.start Matches.insert Matches.empty
    rw [if_neg (by simp; omega)]
    simp [shift, lastDist]
  rw [hstart]
  refine ⟨LeastK.self (by simp; omega), List.pairwise_singleton _ _, ?_⟩
  dsimp only
  by_cases hone : 1 = group
  · rw [if_pos hone, if_neg (by simp [hone])]
    rfl
  · rw [if_neg hone, if_pos (by simp; omega)]

/-- The candidates of a reference, offered in the order of their places. -/
theorem offer_fold (hgroup : 0 < group) (pos : α) (candidates : List (Entry α))
    (hproper : ∀ c ∈ candidates, Proper c.dist) (horder : candidates.Pairwise fun a b => a.pos < b.pos) :
    (candidates.foldl (Matches.offer group · limit) (Matches.start group pos)).list =
      (⟨minusOne, pos⟩ :: sortBy key (candidates.filter (accepted limit))).take group := by
  have href : minusOne.value < 0 := by decide
  have hrun : Holds group limit ⟨minusOne, pos⟩ candidates
      (candidates.foldl (Matches.offer group · limit) (Matches.start group pos)) := by
    induction candidates using List.reverseRecOn with
    | nil => exact start_holds hgroup pos
    | append_singleton seen x ih =>
      obtain ⟨hseen, -, hlast⟩ := List.pairwise_append.mp horder
      rw [List.foldl_append, List.foldl_cons, List.foldl_nil]
      refine (ih (fun c hc => hproper c (by simp [hc])) hseen).offer hgroup href ⟨hproper x (by simp), ?_, ?_⟩
      · intro a ha
        rcases List.mem_cons.mp ha with rfl | ha
        · exact minusOne_number
        · exact (hproper a (by simp [ha])).number
      · intro a ha
        rcases List.mem_cons.mp ha with rfl | ha
        · exact .inl href
        · exact .inr (hlast a ha x (by simp))
  have hnodup : ((candidates.filter (accepted limit)).map key).Nodup := by
    rw [List.Nodup, List.pairwise_map]
    refine (horder.filter _).imp fun hlt heq => ?_
    exact absurd (Prod.mk.inj (congrArg ofLex heq)).2 (ne_of_lt hlt)
  have hfirst : ∀ c ∈ candidates, key (⟨minusOne, pos⟩ : Entry α) < key c := fun c hc =>
    key_lt.mpr (.inl (lt_of_lt_of_le href (hproper c hc).value_nonneg))
  have hall : ((⟨minusOne, pos⟩ :: candidates.filter (accepted limit)).map key).Nodup := by
    rw [List.map_cons, List.nodup_cons]
    refine ⟨fun hmem => ?_, hnodup⟩
    obtain ⟨c, hc, heq⟩ := List.mem_map.mp hmem
    exact absurd heq.symm (ne_of_lt (hfirst c (List.mem_of_mem_filter hc)))
  rw [hrun.least.sorted_eq hall (List.Perm.refl _) hrun.sorted]
  congr 1
  refine eq_of_sorted (sortBy_lt hall) (List.pairwise_cons.mpr ⟨?_, sortBy_lt hnodup⟩)
    ((sortBy_perm key _).trans ((sortBy_perm key _).symm.cons _))
  intro c hc
  exact hfirst c (List.mem_of_mem_filter ((sortBy_perm key _).mem_iff.mp hc))

end Order

end NssFactory.Cpu.Bm4d
