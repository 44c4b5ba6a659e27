import Mathlib.Data.List.Basic
import Mathlib.Data.List.Nodup
import Mathlib.Logic.Function.Basic

/-!
# Loops that send

A nest of loops whose rounds each change one component of the state sends a list of messages,
`Sends`; the lists of loops are put together as the loops are. What becomes of a component
depends on the messages to it alone (`foldl_post`), and of a nest of loops only the rounds that
send to it count (`sent_flatMap`, `flatMap_single`).
-/

namespace NssFactory.Keyed

variable {κ σ α β γ : Type}

section Post

variable [DecidableEq κ] (f : σ → β → σ)

/-- A message is taken in by the component it is sent to. -/
def post (m : κ → σ) (o : κ × β) : κ → σ := Function.update m o.1 (f (m o.1) o.2)

/-- The messages to `k`. -/
def sent (k : κ) (l : List (κ × β)) : List β := (l.filter (·.1 = k)).map Prod.snd

theorem sent_cons (k : κ) (o : κ × β) (l : List (κ × β)) :
    sent k (o :: l) = if o.1 = k then o.2 :: sent k l else sent k l := by
  unfold sent
  by_cases h : o.1 = k <;> simp [h]

theorem foldl_post (m : κ → σ) (l : List (κ × β)) (k : κ) :
    (l.foldl (post f) m) k = (sent k l).foldl f (m k) := by
  induction l generalizing m with
  | nil => rfl
  | cons o l ih =>
    rw [List.foldl_cons, ih, sent_cons, post]
    by_cases h : o.1 = k
    · subst h
      rw [Function.update_self, if_pos rfl, List.foldl_cons]
    · rw [Function.update_of_ne (Ne.symm h), if_neg h]

/-- Messages that change nothing. -/
theorem foldl_post_eq_self {m : κ → σ} {l : List (κ × β)} (h : ∀ o ∈ l, f (m o.1) o.2 = m o.1) :
    l.foldl (post f) m = m := by
  induction l with
  | nil => rfl
  | cons o l ih =>
    have hsame : post f m o = m := by
      unfold post
      rw [h o List.mem_cons_self, Function.update_eq_self]
    rw [List.foldl_cons, hsame]
    exact ih fun o ho => h o (List.mem_cons_of_mem _ ho)

theorem sent_none {k : κ} {l : List (κ × β)} (h : ∀ o ∈ l, o.1 ≠ k) : sent k l = [] := by
  unfold sent
  rw [List.map_eq_nil_iff, List.filter_eq_nil_iff]
  intro o ho
  simpa using h o ho

theorem sent_append (k : κ) (l l' : List (κ × β)) : sent k (l ++ l') = sent k l ++ sent k l' := by
  unfold sent
  rw [List.filter_append, List.map_append]

theorem sent_flatMap (k : κ) (l : List α) (g : α → List (κ × β)) :
    sent k (l.flatMap g) = l.flatMap fun a => sent k (g a) := by
  induction l with
  | nil => rfl
  | cons a l ih =>
    rw [List.flatMap_cons, List.flatMap_cons, ← ih, sent_append]

/-- One message for each of the keys of a list. -/
theorem sent_map {l : List α} {key : α → κ} {message : α → β} {a : α} (hnodup : l.Nodup) (ha : a ∈ l)
    (hinj : ∀ b ∈ l, key b = key a → b = a) :
    sent (key a) (l.map fun b => (key b, message b)) = [message a] := by
  have hnone : ∀ l' : List α, (∀ b ∈ l', key b ≠ key a) →
      sent (key a) (l'.map fun b => (key b, message b)) = [] := by
    intro l' h
    refine sent_none fun o ho => ?_
    obtain ⟨b, hb, rfl⟩ := List.mem_map.mp ho
    exact h b hb
  obtain ⟨before, after, rfl⟩ := List.append_of_mem ha
  obtain ⟨-, hafter, hdisjoint⟩ := List.nodup_append.mp hnodup
  have hbefore : ∀ b ∈ before, key b ≠ key a := fun b hb heq =>
    hdisjoint b hb a List.mem_cons_self (hinj b (by simp [hb]) heq)
  have hlater : ∀ b ∈ after, key b ≠ key a := fun b hb heq =>
    (List.nodup_cons.mp hafter).1 (hinj b (by simp [hb]) heq ▸ hb)
  have hsplit : sent (key a) ((before ++ a :: after).map fun b => (key b, message b)) =
      sent (key a) (before.map fun b => (key b, message b)) ++
        message a :: sent (key a) (after.map fun b => (key b, message b)) := by
    simp [sent]
  rw [hsplit, hnone before hbefore, hnone after hlater]
  rfl

end Post

/-- Of a loop only the round of `a` counts. -/
theorem flatMap_single {l : List α} {g : α → List β} {a : α} (hnodup : l.Nodup) (ha : a ∈ l)
    (h : ∀ b ∈ l, b ≠ a → g b = []) : l.flatMap g = g a := by
  induction l with
  | nil => simp at ha
  | cons b l ih =>
    obtain ⟨hb, hnodup⟩ := List.nodup_cons.mp hnodup
    rw [List.flatMap_cons]
    rcases List.mem_cons.mp ha with rfl | ha
    · have hrest : l.flatMap g = [] := List.flatMap_eq_nil_iff.mpr fun c hc =>
        h c (List.mem_cons_of_mem _ hc) fun heq => hb (heq ▸ hc)
      rw [hrest, List.append_nil]
    · rw [h b List.mem_cons_self fun heq => hb (heq ▸ ha), List.nil_append]
      exact ih hnodup ha fun c hc => h c (List.mem_cons_of_mem _ hc)

/-- The run takes in the messages `l`. -/
def Sends (step : σ → γ → σ) (run : σ → Option σ) (l : List γ) : Prop := ∀ s, run s = some (l.foldl step s)

namespace Sends

variable {step : σ → γ → σ} {run run' : σ → Option σ} {l l' : List γ}

theorem nothing : Sends step some [] := fun _ => rfl

theorem comp (h : Sends step run l) (h' : Sends step run' l') : Sends step (fun s => run s >>= run') (l ++ l') := by
  intro s
  dsimp only
  rw [h s, List.foldl_append]
  exact h' _

/-- A loop sends what its rounds send. -/
theorem each {as : List α} {round : σ → α → Option σ} {g : α → List γ}
    (h : ∀ a ∈ as, Sends step (fun s => round s a) (g a)) :
    Sends step (fun s => as.foldlM round s) (as.flatMap g) := by
  induction as with
  | nil => exact fun _ => rfl
  | cons a as ih =>
    rw [List.flatMap_cons]
    exact (h a List.mem_cons_self).comp (ih fun b hb => h b (List.mem_cons_of_mem _ hb))

theorem of_eq (h : Sends step run l) (heq : l = l') : Sends step run l' := heq ▸ h

end Sends

end NssFactory.Keyed
