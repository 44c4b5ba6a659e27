import Mathlib.Data.Int.Range
import Mathlib.Data.List.Basic
import Mathlib.Data.List.Nodup
import Mathlib.Order.Basic

/-!
# Counting loops

A loop `for (x = m; x < n; ++x)` of a program is a left fold over `Int.range m n`.
This file has the ways such a range splits (`range_cons`, `range_snoc`, `range_append`)
and the loop rule `foldl_range_induct`: what holds before the first round and is carried
from each round to the next holds after the last. Loops that may fail are `foldlM` in `Except`.
-/

namespace NssFactory.Loops

universe u

theorem range_empty {m n : Int} (h : n ≤ m) : Int.range m n = [] := by
  have h0 : (n - m).toNat = 0 := by omega
  simp [Int.range, h0]

theorem range_cons {m n : Int} (h : m < n) : Int.range m n = m :: Int.range (m + 1) n := by
  have h1 : (n - m).toNat = (n - (m + 1)).toNat + 1 := by omega
  simp only [Int.range, h1, List.range_succ_eq_map, List.map_cons, List.map_map]
  congr 1
  · simp
  · apply List.map_congr_left
    intro i _
    simp only [Function.comp_apply]
    omega

theorem range_append {m k n : Int} (h : m ≤ k) (h' : k ≤ n) :
    Int.range m n = Int.range m k ++ Int.range k n := by
  induction hd : (k - m).toNat generalizing m with
  | zero =>
    have e : k = m := by omega
    subst e
    rw [range_empty (Int.le_refl _), List.nil_append]
  | succ d ih =>
    rw [range_cons (show m < n by omega), range_cons (show m < k by omega), List.cons_append,
      ih (by omega) (by omega)]

theorem range_snoc {m n : Int} (h : m ≤ n) : Int.range m (n + 1) = Int.range m n ++ [n] := by
  rw [range_append h (show n ≤ n + 1 by omega), range_cons (show n < n + 1 by omega),
    range_empty (Int.le_refl _)]

/-- A loop over offsets is the loop over the points they lead to. -/
theorem range_map_add (a m n : Int) : (Int.range m n).map (a + ·) = Int.range (a + m) (a + n) := by
  have h : (a + n - (a + m)).toNat = (n - m).toNat := by omega
  simp only [Int.range, h, List.map_map]
  apply List.map_congr_left
  intro i _
  simp only [Function.comp_apply]
  omega

/-- The part of a range up to a point of it. -/
theorem range_takeWhile_le {m x n : Int} (h : m ≤ x + 1) (h' : x < n) :
    (Int.range m n).takeWhile (fun y => y ≤ x) = Int.range m (x + 1) := by
  rw [range_append h (show x + 1 ≤ n by omega), List.takeWhile_append_of_pos]
  · cases Int.lt_or_le (x + 1) n with
    | inl hlt => rw [range_cons hlt]; simp
    | inr hle => rw [range_empty hle]; simp
  · intro y hy
    have := Int.mem_range_iff.mp hy
    simpa using (by omega : y ≤ x)

/-- Where only elements at the front satisfy `p`. -/
theorem dropWhile_eq_filter {α : Type*} {p : α → Bool} {l : List α}
    (h : l.Pairwise fun a b => p b = true → p a = true) : l.dropWhile p = l.filter fun a => !p a := by
  induction l with
  | nil => rfl
  | cons a l ih =>
    obtain ⟨ha, hl⟩ := List.pairwise_cons.mp h
    rw [List.dropWhile_cons, List.filter_cons]
    cases hp : p a with
    | true => simpa using ih hl
    | false =>
      have hall : ∀ b ∈ l, (!p b) = true := by
        intro b hb
        rw [Bool.not_eq_true', ← Bool.not_eq_true]
        intro hpb
        rw [ha b hb hpb] at hp
        exact absurd hp (by decide)
      rw [List.filter_eq_self.mpr hall]
      simp

theorem range_pairwise (m n : Int) : (Int.range m n).Pairwise (· < ·) := by
  induction hd : (n - m).toNat generalizing m with
  | zero => rw [range_empty (by omega)]; exact List.Pairwise.nil
  | succ d ih =>
    rw [range_cons (by omega), List.pairwise_cons]
    refine ⟨fun x hx => ?_, ih _ (by omega)⟩
    have := Int.mem_range_iff.mp hx
    omega

theorem range_nodup (m n : Int) : (Int.range m n).Nodup :=
  (range_pairwise m n).imp (fun h => by omega)

/-- Increasing lists are told apart by what is in them. -/
theorem eq_of_increasing {α : Type*} [Preorder α] {l l' : List α} (h : l.Pairwise (· < ·))
    (h' : l'.Pairwise (· < ·)) (hmem : ∀ x, x ∈ l ↔ x ∈ l') : l = l' := by
  have hnd : l.Nodup := h.imp fun hlt => ne_of_lt hlt
  have hnd' : l'.Nodup := h'.imp fun hlt => ne_of_lt hlt
  apply ((List.perm_ext_iff_of_nodup hnd hnd').mpr hmem).eq_of_pairwise _ h h'
  exact fun a b _ _ hab hba => absurd hba (lt_asymm hab)

/-- The rule of counting loops: `P x s` says what holds of the state `s` when the counter
is at `x`. -/
theorem foldl_range_induct {σ : Type*} (P : Int → σ → Prop) (body : σ → Int → σ)
    {m n : Int} {s : σ} (hmn : m ≤ n) (start : P m s)
    (round : ∀ x s, m ≤ x → x < n → P x s → P (x + 1) (body s x)) :
    P n ((Int.range m n).foldl body s) := by
  induction hd : (n - m).toNat generalizing m s with
  | zero =>
    have e : n = m := by omega
    subst e
    rw [range_empty (Int.le_refl _)]
    exact start
  | succ d ih =>
    rw [range_cons (by omega), List.foldl_cons]
    refine ih (by omega) (round m s (Int.le_refl _) (by omega) start) ?_ (by omega)
    intro x s hx hn hp
    exact round x s (by omega) hn hp

/-- The rule of loops over a counter of the state, up to `n` and while `due` holds: afterwards the
counter is at the end, or at a point that is not due. -/
theorem foldl_due_induct {σ : Type*} (P : σ → Prop) (next : σ → Int) (due : Int → Bool)
    (body : σ → σ) {n : Int} {s : σ} (start : P s)
    (round : ∀ s, P s → next s < n → due (next s) = true →
      P (body s) ∧ next (body s) = next s + 1) :
    P (((Int.range (next s) n).takeWhile due).foldl (fun s _ => body s) s) ∧
      (next (((Int.range (next s) n).takeWhile due).foldl (fun s _ => body s) s) < n →
        due (next (((Int.range (next s) n).takeWhile due).foldl (fun s _ => body s) s)) =
          false) := by
  induction hd : (n - next s).toNat generalizing s with
  | zero =>
    rw [range_empty (by omega), List.takeWhile_nil, List.foldl_nil]
    exact ⟨start, fun hlt => by omega⟩
  | succ d ih =>
    rw [range_cons (by omega)]
    cases hdue : due (next s) with
    | false =>
      rw [List.takeWhile_cons_of_neg (by simp [hdue]), List.foldl_nil]
      exact ⟨start, fun _ => hdue⟩
    | true =>
      obtain ⟨hP, hnext⟩ := round s start (by omega) hdue
      rw [List.takeWhile_cons_of_pos hdue, List.foldl_cons, ← hnext]
      exact ih hP (by omega)

/-! ## Loops that may fail -/

variable {α β σ ε : Type*} {l : List α} {s : σ}

theorem ok_bind {α β : Type u} {a : α} {f : α → Except ε β} : (Except.ok a >>= f) = f a := rfl

theorem error_bind {α β : Type u} {e : ε} {f : α → Except ε β} :
    ((Except.error e : Except ε α) >>= f) = .error e := rfl

theorem bind_eq_ok {α β : Type u} {x : Except ε α} {f : α → Except ε β} {b : β} :
    (x >>= f) = .ok b ↔ ∃ a, x = .ok a ∧ f a = .ok b := by
  cases x with
  | error e => exact ⟨nofun, nofun⟩
  | ok a => exact ⟨fun h => ⟨a, rfl, h⟩, fun ⟨_, rfl, h⟩ => h⟩

/-- A loop of checks passes when every check does. -/
theorem forM_eq_ok {α : Type u} {l : List α} {f : α → Except ε PUnit} :
    l.forM f = .ok () ↔ ∀ x ∈ l, f x = .ok () := by
  induction l with
  | nil => exact ⟨fun _ x hx => absurd hx List.not_mem_nil, fun _ => rfl⟩
  | cons y l ih =>
    change (f y >>= fun _ => l.forM f) = .ok () ↔ _
    rw [bind_eq_ok, List.forall_mem_cons, ← ih]
    exact ⟨fun ⟨_, hy, hl⟩ => ⟨hy, hl⟩, fun ⟨hy, hl⟩ => ⟨⟨⟩, hy, hl⟩⟩

/-- The rule of loops that did not fail: `P before s` says what holds of the state `s` after the
elements `before`. -/
theorem foldlM_ok_induct {f : σ → α → Except ε σ} (P : List α → σ → Prop) (start : P [] s)
    (round : ∀ before a rest s s', l = before ++ a :: rest → P before s → f s a = .ok s' →
      P (before ++ [a]) s') {s' : σ} (h : l.foldlM f s = .ok s') : P l s' := by
  have hrest : ∀ rest before s, l = before ++ rest → P before s →
      rest.foldlM f s = .ok s' → P l s' := by
    intro rest
    induction rest with
    | nil =>
      intro before s hl hP hs
      rw [List.append_nil] at hl
      obtain rfl := Except.ok.inj hs
      exact hl ▸ hP
    | cons a rest ih =>
      intro before s hl hP hs
      rw [List.foldlM_cons] at hs
      obtain ⟨s₁, h₁, hs⟩ := bind_eq_ok.mp hs
      have hl' : l = before ++ [a] ++ rest := by rw [hl, List.append_assoc]; rfl
      exact ih (before ++ [a]) s₁ hl' (round before a rest s s₁ hl hP h₁) hs
  exact hrest l [] s rfl start h

/-- The rule of counting loops that did not fail. -/
theorem foldlM_range_induct {f : σ → Int → Except ε σ} (P : Int → σ → Prop) {m n : Int}
    (hmn : m ≤ n) (start : P m s)
    (round : ∀ x s s', m ≤ x → x < n → P x s → f s x = .ok s' → P (x + 1) s') {s' : σ}
    (h : (Int.range m n).foldlM f s = .ok s') : P n s' := by
  induction hd : (n - m).toNat generalizing m s with
  | zero =>
    have e : n = m := by omega
    subst e
    rw [range_empty (Int.le_refl _)] at h
    exact Except.ok.inj h ▸ start
  | succ d ih =>
    rw [range_cons (by omega), List.foldlM_cons] at h
    obtain ⟨s₁, h₁, h⟩ := bind_eq_ok.mp h
    refine ih (by omega) (round m s s₁ (Int.le_refl _) (by omega) start h₁) ?_ h (by omega)
    intro x s s' hx hn hp hs
    exact round x s s' (by omega) hn hp hs

/-- Where a loop failed. -/
theorem foldlM_error {f : σ → α → Except ε σ} {e : ε} (h : l.foldlM f s = .error e) :
    ∃ before a rest s', l = before ++ a :: rest ∧ before.foldlM f s = .ok s' ∧
      f s' a = .error e := by
  induction l generalizing s with
  | nil => exact absurd h nofun
  | cons a l ih =>
    rw [List.foldlM_cons] at h
    cases ha : f s a with
    | error e' =>
      rw [ha] at h
      exact ⟨[], a, l, s, rfl, rfl, ha.trans h⟩
    | ok s₁ =>
      rw [ha] at h
      obtain ⟨before, b, rest, s', rfl, hbefore, hb⟩ := ih h
      exact ⟨a :: before, b, rest, s', rfl, by rw [List.foldlM_cons, ha]; exact hbefore, hb⟩

theorem foldlM_range_error {f : σ → Int → Except ε σ} {m n : Int} {e : ε}
    (h : (Int.range m n).foldlM f s = .error e) :
    ∃ x s', m ≤ x ∧ x < n ∧ (Int.range m x).foldlM f s = .ok s' ∧ f s' x = .error e := by
  induction hd : (n - m).toNat generalizing m s with
  | zero =>
    rw [range_empty (by omega)] at h
    exact absurd h nofun
  | succ d ih =>
    rw [range_cons (by omega), List.foldlM_cons] at h
    cases hm : f s m with
    | error e' =>
      rw [hm] at h
      exact ⟨m, s, Int.le_refl _, by omega, by rw [range_empty (Int.le_refl _)]; rfl, hm.trans h⟩
    | ok s₁ =>
      rw [hm] at h
      obtain ⟨x, s', hx, hxn, hbefore, hfail⟩ := ih h (by omega)
      refine ⟨x, s', by omega, hxn, ?_, hfail⟩
      rw [range_cons (by omega), List.foldlM_cons, hm]
      exact hbefore

/-- A loop of loops is the loop over all the points. -/
theorem foldlM_flatMap {m : Type _ → Type*} [Monad m] [LawfulMonad m] {f : α → List β}
    {g : σ → β → m σ} :
    l.foldlM (fun s a => (f a).foldlM g s) s = (l.flatMap f).foldlM g s := by
  induction l generalizing s with
  | nil => rfl
  | cons a l ih => simp only [List.foldlM_cons, List.flatMap_cons, List.foldlM_append, ih]

/-- Loops over loops meet each point once when a point tells the round it is of. -/
theorem nodup_flatMap_key {f : α → List β} (key : β → α) (hl : l.Nodup)
    (hf : ∀ a ∈ l, (f a).Nodup) (hkey : ∀ a ∈ l, ∀ b ∈ f a, key b = a) : (l.flatMap f).Nodup := by
  induction l with
  | nil => exact List.nodup_nil
  | cons a l ih =>
    obtain ⟨ha, hl⟩ := List.nodup_cons.mp hl
    rw [List.flatMap_cons, List.nodup_append']
    refine ⟨hf a List.mem_cons_self, ih hl (fun b hb => hf b (List.mem_cons_of_mem _ hb))
      fun b hb => hkey b (List.mem_cons_of_mem _ hb), fun b hb hb' => ?_⟩
    obtain ⟨a', ha', hb'⟩ := List.mem_flatMap.mp hb'
    have hsame := (hkey a List.mem_cons_self b hb).symm.trans
      (hkey a' (List.mem_cons_of_mem _ ha') b hb')
    exact ha (hsame ▸ ha')

/-- The places of rows of columns, in raster order. -/
theorem raster_nodup {x0 x1 : Int → Int} {ys : List Int} (h : ys.Nodup) :
    (ys.flatMap fun y => (Int.range (x0 y) (x1 y)).map fun x => (x, y)).Nodup := by
  refine nodup_flatMap_key Prod.snd h
    (fun y _ => (range_nodup _ _).map fun a b hab => (Prod.mk.inj hab).1) fun y _ p hp => ?_
  obtain ⟨x, -, rfl⟩ := List.mem_map.mp hp
  rfl

/-- A loop whose rounds take each element for itself. -/
theorem foldl_map_each {σ α : Type*} {f : α → σ → σ} {l : List α} {ss : List σ} :
    l.foldl (fun ss a => ss.map (f a)) ss = ss.map fun s => l.foldl (fun s a => f a s) s := by
  induction l generalizing ss with
  | nil => simp
  | cons a l ih => simp [ih, Function.comp_def]

/-- The places of the points of a range. -/
theorem range_zipIdx (m n : Int) (k : Nat) :
    (Int.range m n).zipIdx k = (Int.range m n).map fun x => (x, k + (x - m).toNat) := by
  induction hn : (n - m).toNat generalizing m k with
  | zero => simp [range_empty (show n ≤ m by omega)]
  | succ d ih =>
    rw [range_cons (by omega), List.zipIdx_cons, ih (m + 1) (k + 1) (by omega), List.map_cons]
    congr 1
    · simp
    · refine List.map_congr_left fun x hx => ?_
      have hx := Int.mem_range_iff.mp hx
      rw [Prod.mk.injEq]
      exact ⟨rfl, by omega⟩

/-- The places of a raster: a row holds `x1 - x0` of them. -/
theorem raster_zipIdx {x0 x1 : Int} (h : x0 ≤ x1) (y0 y1 : Int) :
    ((Int.range y0 y1).flatMap fun y => (Int.range x0 x1).map fun x => (x, y)).zipIdx =
      (Int.range y0 y1).flatMap fun y => (Int.range x0 x1).map fun x =>
        ((x, y), ((y - y0) * (x1 - x0) + (x - x0)).toNat) := by
  cases Int.le_total y1 y0 with
  | inl hempty => simp [range_empty hempty]
  | inr hle =>
    induction hn : (y1 - y0).toNat generalizing y1 with
    | zero => simp [range_empty (show y1 ≤ y0 by omega)]
    | succ d ih =>
      obtain ⟨y, rfl⟩ : ∃ y, y1 = y + 1 := ⟨y1 - 1, by omega⟩
      have hrows : (((Int.range y0 y).flatMap fun y => (Int.range x0 x1).map fun x =>
          (x, y)).length : Int) = (y - y0) * (x1 - x0) := by
        have hlen : ∀ a b : Int, (Int.range a b).length = (b - a).toNat := by
          intro a b
          simp [Int.range]
        simp only [List.length_flatMap, List.length_map, hlen, List.map_const', List.sum_replicate_nat]
        push_cast
        rw [Int.toNat_of_nonneg (by omega), Int.toNat_of_nonneg (by omega)]
      rw [range_snoc (by omega), List.flatMap_append, List.flatMap_append, List.zipIdx_append,
        ih y (by omega) (by omega)]
      congr 1
      simp only [List.flatMap_cons, List.flatMap_nil, List.append_nil, Nat.zero_add]
      rw [List.zipIdx_map, range_zipIdx, List.map_map]
      refine List.map_congr_left fun x hx => ?_
      have hx := Int.mem_range_iff.mp hx
      have hmul : 0 ≤ (y - y0) * (x1 - x0) := Int.mul_nonneg (by omega) (by omega)
      simp only [Function.comp, Prod.map_apply, id, Prod.mk.injEq, true_and]
      omega

/-- A loop that fails at the first element that does not pass a check. -/
theorem foldlM_check {check : α → Prop} [DecidablePred check] {f : σ → α → σ} {e : ε} :
    l.foldlM (fun s a => if check a then Except.ok (f s a) else .error e) s =
      if ∀ a ∈ l, check a then .ok (l.foldl f s) else .error e := by
  induction l generalizing s with
  | nil => rfl
  | cons a l ih =>
    rw [List.foldlM_cons]
    by_cases ha : check a
    · rw [if_pos ha]
      have hall : (∀ b ∈ a :: l, check b) ↔ ∀ b ∈ l, check b := by simp [ha]
      simp only [hall]
      exact ih
    · rw [if_neg ha, if_neg fun hall => ha (hall a List.mem_cons_self)]
      rfl

/-- Two loops whose rounds agree on the states that are met. `P done s`: what holds of the state
after the elements `done`. -/
theorem foldlM_agree {f g : σ → α → Except ε σ} (P : List α → σ → Prop) (start : P [] s)
    (same : ∀ done a rest s, l = done ++ a :: rest → P done s → f s a = g s a)
    (keeps : ∀ done a rest s s', l = done ++ a :: rest → P done s → g s a = .ok s' →
      P (done ++ [a]) s') : l.foldlM f s = l.foldlM g s := by
  have hrest : ∀ rest done s, l = done ++ rest → P done s → rest.foldlM f s = rest.foldlM g s := by
    intro rest
    induction rest with
    | nil => exact fun _ _ _ _ => rfl
    | cons a rest ih =>
      intro done s hl hP
      rw [List.foldlM_cons, List.foldlM_cons, same done a rest s hl hP]
      cases hg : g s a with
      | error e => rfl
      | ok s' =>
        have hl' : l = done ++ [a] ++ rest := by rw [hl, List.append_assoc]; rfl
        exact ih (done ++ [a]) s' hl' (keeps done a rest s s' hl hP hg)
  exact hrest l [] s rfl start

/-! ## How a run ends -/

/-- What holds of the error, or of the result. -/
def Ends (E : ε → Prop) (Q : α → Prop) : Except ε α → Prop
  | .error e => E e
  | .ok a => Q a

theorem Ends.bind {α β : Type u} {E : ε → Prop} {P : α → Prop} {Q : β → Prop} {x : Except ε α}
    {f : α → Except ε β} (hx : Ends E P x) (hf : ∀ a, P a → Ends E Q (f a)) :
    Ends E Q (x >>= f) := by
  cases x with
  | error e => exact hx
  | ok a => exact hf a hx

theorem Ends.foldlM {E : ε → Prop} {P : σ → Prop} {f : σ → α → Except ε σ} (start : P s)
    (round : ∀ s, P s → ∀ a ∈ l, Ends E P (f s a)) : Ends E P (l.foldlM f s) := by
  induction l generalizing s with
  | nil => exact start
  | cons a l ih =>
    rw [List.foldlM_cons]
    exact (round s start a List.mem_cons_self).bind fun s' hs' =>
      ih hs' fun s hs a ha => round s hs a (List.mem_cons_of_mem _ ha)

/-! ## Results without errors -/

theorem ok_of_toOption {x y : Except ε α} {a : α} (h : x.toOption = y.toOption)
    (hy : y = .ok a) : x = .ok a := by
  subst hy
  cases x with
  | error e => exact absurd h nofun
  | ok b => exact congrArg Except.ok (Option.some.inj h)

theorem error_of_toOption {x y : Except ε α} {e : ε} (h : x.toOption = y.toOption)
    (hy : y = .error e) : ∃ e', x = .error e' := by
  subst hy
  cases x with
  | error e' => exact ⟨e', rfl⟩
  | ok b => exact absurd h nofun

/-- Parts with the same results make a whole with the same result. -/
theorem toOption_bind {α β : Type u} {x y : Except ε α} {f g : α → Except ε β}
    (hx : x.toOption = y.toOption) (hf : ∀ a, (f a).toOption = (g a).toOption) :
    (x >>= f).toOption = (y >>= g).toOption := by
  cases hy : y with
  | error e =>
    obtain ⟨e', rfl⟩ := error_of_toOption hx hy
    rfl
  | ok a =>
    rw [ok_of_toOption hx hy]
    exact hf a

/-- Loops whose rounds have the same results have the same result. -/
theorem toOption_foldlM {f g : σ → α → Except ε σ}
    (h : ∀ s, ∀ a ∈ l, (f s a).toOption = (g s a).toOption) :
    (l.foldlM f s).toOption = (l.foldlM g s).toOption := by
  induction l generalizing s with
  | nil => rfl
  | cons a l ih =>
    rw [List.foldlM_cons, List.foldlM_cons]
    exact toOption_bind (h s a List.mem_cons_self) fun s' =>
      ih fun s a ha => h s a (List.mem_cons_of_mem _ ha)

end NssFactory.Loops
