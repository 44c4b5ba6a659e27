import Mathlib.Logic.Function.Basic
import NssFactory.Lib.Ledger
import NssFactory.Lib.Steps

/-!
# The resource budget

`nss/resources.hpp`: accounts charge bytes to the budget of their node, by kind. The bytes of
the framework are counted but not owned: they do not go against the limit. All changes of a
budget are made under its mutex, so they follow one another in some order.

`Sys` is any number of budgets and accounts with the charges that are out. Clients release what
they hold. `retag` moves an account's bytes between two kinds and leaves `owned` alone, so the
books balance as long as no account is moved into or out of the framework's kind.
-/

namespace NssFactory.Resources

inductive ResourceKind
  | workspace | cached | pinned | inflight | output | framework
  deriving DecidableEq, Repr

structure ResourceSnapshot where
  bytes : ResourceKind → UInt64
  owned : UInt64
  peak : UInt64
  limit : UInt64

structure ResourceAccount where
  /-- The account's budget, if it has one. -/
  budget : Option Nat
  kind : ResourceKind
  bytes : UInt64

inductive ResourceError
  | memoryLimit
  | badArrayNewLength
  deriving DecidableEq, Repr

/-- The greatest `size_t`. -/
def sizeMax : UInt64 := .ofNat (UInt64.size - 1)

def checkedAdd (a b : UInt64) : Except ResourceError UInt64 :=
  if b > sizeMax - a then .error .badArrayNewLength else .ok (a + b)

namespace ResourceAccount

variable (account : ResourceAccount) (state : ResourceSnapshot)

def acquire (bytes : UInt64) : Except ResourceError Unit × ResourceSnapshot × ResourceAccount :=
  if account.kind ≠ .framework ∧ bytes > state.limit - state.owned then
    (.error .memoryLimit, state, account)
  else
    match checkedAdd (state.bytes account.kind) bytes with
    | .error e => (.error e, state, account)
    | .ok next =>
      match checkedAdd account.bytes bytes with
      | .error e => (.error e, state, account)
      | .ok accountNext =>
        let state := { state with bytes := Function.update state.bytes account.kind next }
        let account' := { account with bytes := accountNext }
        if account.kind ≠ .framework then
          let owned := state.owned + bytes
          (.ok (), { state with owned := owned, peak := max state.peak owned }, account')
        else (.ok (), state, account')

def release (bytes : UInt64) : ResourceSnapshot × ResourceAccount :=
  let state := { state with
    bytes := Function.update state.bytes account.kind (state.bytes account.kind - bytes) }
  let state := if account.kind ≠ .framework then { state with owned := state.owned - bytes }
    else state
  (state, { account with bytes := account.bytes - bytes })

def retag (kind : ResourceKind) : ResourceSnapshot × ResourceAccount :=
  if kind = account.kind then (state, account)
  else
    let bytes := Function.update state.bytes account.kind
      (state.bytes account.kind - account.bytes)
    ({ state with bytes := Function.update bytes kind (bytes kind + account.bytes) },
      { account with kind := kind })

end ResourceAccount

/-- What a client holds of an account. -/
structure Charge where
  account : Nat
  bytes : UInt64
  deriving DecidableEq

structure Sys where
  budget : Nat → ResourceSnapshot
  account : Nat → ResourceAccount
  charges : List Charge

inductive Event
  | acquire (account : Nat) (bytes : UInt64)
  | release (charge : Charge)
  | retag (account : Nat) (kind : ResourceKind)

namespace Sys

/-- Budgets with their limits, and accounts that have not been used. -/
def init (limit : Nat → UInt64) (of : Nat → Option Nat × ResourceKind) : Sys where
  budget b := ⟨fun _ => 0, 0, 0, limit b⟩
  account a := ⟨(of a).1, (of a).2, 0⟩
  charges := []

variable (s : Sys)

/-- The state and the account after a change of theirs. -/
def put (b a : Nat) (r : ResourceSnapshot × ResourceAccount) (charges : List Charge) : Sys where
  budget := Function.update s.budget b r.1
  account := Function.update s.account a r.2
  charges := charges

/-- A client's `acquire`: it holds the bytes unless it is refused. Without a budget nothing is
counted. -/
def acquire (a : Nat) (bytes : UInt64) : Except ResourceError Unit × Sys :=
  match (s.account a).budget with
  | none => (.ok (), { s with charges := ⟨a, bytes⟩ :: s.charges })
  | some b =>
    let (result, after) := (s.account a).acquire (s.budget b) bytes
    (result, s.put b a after
      (if result = .ok () then ⟨a, bytes⟩ :: s.charges else s.charges))

def release (c : Charge) : Sys :=
  match (s.account c.account).budget with
  | none => { s with charges := s.charges.erase c }
  | some b =>
    s.put b c.account ((s.account c.account).release (s.budget b) c.bytes) (s.charges.erase c)

def retag (a : Nat) (kind : ResourceKind) : Sys :=
  match (s.account a).budget with
  | none => s
  | some b => s.put b a ((s.account a).retag (s.budget b) kind) s.charges

/-- A client changes what it holds: it releases a charge of its own. -/
inductive Step : Sys → Event → Sys → Prop
  | acquire {s : Sys} {a : Nat} {bytes : UInt64} :
      Step s (.acquire a bytes) (s.acquire a bytes).2
  | release {s : Sys} {c : Charge} : c ∈ s.charges → Step s (.release c) (s.release c)
  | retag {s : Sys} {a : Nat} {kind : ResourceKind} : Step s (.retag a kind) (s.retag a kind)

/-- No account is moved into the framework's kind or out of it. -/
def Stays (s : Sys) : Event → Prop
  | .retag a kind => (s.account a).kind = .framework ↔ kind = .framework
  | _ => True

/-- A step of clients that retag between owned kinds only. -/
def Kept (s : Sys) (e : Event) (s' : Sys) : Prop := Step s e s' ∧ s.Stays e

/-- The bytes of the charges on a budget whose account is of a kind in `P`. -/
def live (s : Sys) (b : Nat) (P : ResourceKind → Prop) [DecidablePred P] : Nat :=
  Ledger.total (fun c : Charge => c.bytes.toNat)
    (fun c => (s.account c.account).budget = some b ∧ P (s.account c.account).kind) s.charges

/-- What is out of one account. -/
def held (s : Sys) (a : Nat) : Nat :=
  Ledger.total (fun c : Charge => c.bytes.toNat) (fun c => c.account = a) s.charges

/-- The books balance. -/
structure Accounted (s : Sys) : Prop where
  kind_eq : ∀ b k, ((s.budget b).bytes k).toNat = s.live b (· = k)
  owned_eq : ∀ b, (s.budget b).owned.toNat = s.live b (· ≠ .framework)
  owned_le : ∀ b, (s.budget b).owned ≤ (s.budget b).limit
  account_eq : ∀ a, (s.account a).budget ≠ none → (s.account a).bytes.toNat = s.held a

end Sys

/-! ## One account and its budget -/

section Account

variable {account account' : ResourceAccount} {state state' : ResourceSnapshot} {n a b c : UInt64}
  {kind : ResourceKind}

theorem sizeMax_toNat : sizeMax.toNat = 18446744073709551615 := by
  unfold sizeMax
  rw [UInt64.toNat_ofNat_of_lt' (by decide)]
  rfl

/-- Sums that fit. -/
theorem add_toNat (h : a.toNat + b.toNat ≤ 18446744073709551615) :
    (a + b).toNat = a.toNat + b.toNat := by
  rw [UInt64.toNat_add, Nat.mod_eq_of_lt (by omega)]

theorem sub_toNat (h : b.toNat ≤ a.toNat) : (a - b).toNat = a.toNat - b.toNat :=
  UInt64.toNat_sub_of_le _ _ (UInt64.le_iff_toNat_le.mpr h)

theorem checkedAdd_ok (h : checkedAdd a b = .ok c) : c.toNat = a.toNat + b.toNat := by
  have ha := a.toNat_lt
  have hmax := sizeMax_toNat
  unfold checkedAdd at h
  split at h
  · cases h
  · rename_i hle
    cases h
    rw [gt_iff_lt, UInt64.not_lt, UInt64.le_iff_toNat_le, sub_toNat (by omega)] at hle
    exact add_toNat (by omega)

theorem max_toNat : (max a b).toNat = max a.toNat b.toNat := by
  rw [show max a b = if a ≤ b then b else a from rfl]
  split
  · rename_i hle
    exact (Nat.max_eq_right (UInt64.le_iff_toNat_le.mp hle)).symm
  · rename_i hle
    rw [UInt64.not_le, UInt64.lt_iff_toNat_lt] at hle
    exact (Nat.max_eq_left (Nat.le_of_lt hle)).symm

theorem max_eq_self (h : b ≤ a) : max a b = a :=
  UInt64.toNat_inj.mp (max_toNat.trans (Nat.max_eq_left (UInt64.le_iff_toNat_le.mp h)))

/-- A refused `acquire` changes no counter. -/
theorem acquire_error {e : ResourceError}
    (h : account.acquire state n = (.error e, state', account')) :
    state' = state ∧ account' = account := by
  unfold ResourceAccount.acquire at h
  generalize checkedAdd (state.bytes account.kind) n = next at h
  generalize checkedAdd account.bytes n = accountNext at h
  by_cases hroom : account.kind ≠ .framework ∧ n > state.limit - state.owned
  · rw [if_pos hroom] at h
    cases h
    exact ⟨rfl, rfl⟩
  rw [if_neg hroom] at h
  cases next with
  | error e =>
    cases h
    exact ⟨rfl, rfl⟩
  | ok next =>
    cases accountNext with
    | error e =>
      cases h
      exact ⟨rfl, rfl⟩
    | ok accountNext =>
      simp only at h
      split at h <;> cases h

/-- What is added by an `acquire` that is not refused. -/
theorem acquire_ok (h : account.acquire state n = (.ok (), state', account'))
    (hle : state.owned ≤ state.limit) :
    account'.budget = account.budget ∧ account'.kind = account.kind ∧
      account'.bytes.toNat = account.bytes.toNat + n.toNat ∧
      (∀ k, (state'.bytes k).toNat =
        (state.bytes k).toNat + if account.kind = k then n.toNat else 0) ∧
      state'.owned.toNat =
        state.owned.toNat + (if account.kind ≠ .framework then n.toNat else 0) ∧
      state'.limit = state.limit ∧ state'.owned ≤ state'.limit ∧
      (state.owned ≤ state.peak → state'.peak = max state.peak state'.owned) := by
  unfold ResourceAccount.acquire at h
  rw [UInt64.le_iff_toNat_le] at hle
  generalize hnext : checkedAdd (state.bytes account.kind) n = next at h
  generalize haccount : checkedAdd account.bytes n = accountNext at h
  by_cases hroom : account.kind ≠ .framework ∧ n > state.limit - state.owned
  · rw [if_pos hroom] at h
    cases h
  rw [if_neg hroom] at h
  cases next with
  | error e => cases h
  | ok next =>
    cases accountNext with
    | error e => cases h
    | ok accountNext =>
      have hnext' := checkedAdd_ok hnext
      have haccount' := checkedAdd_ok haccount
      have hbytes : ∀ k, (Function.update state.bytes account.kind next k).toNat =
          (state.bytes k).toNat + if account.kind = k then n.toNat else 0 := by
        intro k
        by_cases hk : account.kind = k
        · subst hk
          rw [Function.update_self, hnext', if_pos rfl]
        · rw [Function.update_of_ne (Ne.symm hk), if_neg hk, Nat.add_zero]
      simp only at h
      by_cases howned : account.kind ≠ .framework
      · have hfit : n.toNat ≤ state.limit.toNat - state.owned.toNat := by
          have := not_and.mp hroom howned
          rwa [gt_iff_lt, UInt64.not_lt, UInt64.le_iff_toNat_le, sub_toNat hle] at this
        have hlimit := state.limit.toNat_lt
        have hsum : (state.owned + n).toNat = state.owned.toNat + n.toNat := add_toNat (by omega)
        rw [if_pos howned] at h
        cases h
        refine ⟨rfl, rfl, haccount', hbytes, ?_, rfl, ?_, fun _ => rfl⟩
        · rw [if_pos howned, hsum]
        · rw [UInt64.le_iff_toNat_le, hsum]
          show state.owned.toNat + n.toNat ≤ state.limit.toNat
          omega
      · rw [if_neg howned] at h
        cases h
        refine ⟨rfl, rfl, haccount', hbytes, ?_, rfl, UInt64.le_iff_toNat_le.mpr hle,
          fun hpeak => ?_⟩
        · rw [if_neg howned, Nat.add_zero]
        · exact (max_eq_self hpeak).symm

/-- What is taken away by the release of bytes that are charged. -/
theorem release_spec (hkind : n.toNat ≤ (state.bytes account.kind).toNat)
    (howned : account.kind ≠ .framework → n.toNat ≤ state.owned.toNat)
    (haccount : n.toNat ≤ account.bytes.toNat)
    (h : account.release state n = (state', account')) :
    account'.budget = account.budget ∧ account'.kind = account.kind ∧
      account'.bytes.toNat = account.bytes.toNat - n.toNat ∧
      (∀ k, (state'.bytes k).toNat =
        (state.bytes k).toNat - if account.kind = k then n.toNat else 0) ∧
      state'.owned.toNat =
        state.owned.toNat - (if account.kind ≠ .framework then n.toNat else 0) ∧
      state'.limit = state.limit ∧ state'.peak = state.peak := by
  have hbytes : ∀ k, (Function.update state.bytes account.kind (state.bytes account.kind - n) k).toNat =
      (state.bytes k).toNat - if account.kind = k then n.toNat else 0 := by
    intro k
    by_cases hk : account.kind = k
    · subst hk
      rw [Function.update_self, if_pos rfl, sub_toNat hkind]
    · rw [Function.update_of_ne (Ne.symm hk), if_neg hk, Nat.sub_zero]
  unfold ResourceAccount.release at h
  by_cases hfw : account.kind ≠ .framework
  · simp only [if_pos hfw] at h
    cases h
    refine ⟨rfl, rfl, sub_toNat haccount, hbytes, ?_, rfl, rfl⟩
    rw [if_pos hfw]
    exact sub_toNat (howned hfw)
  · simp only [if_neg hfw] at h
    cases h
    refine ⟨rfl, rfl, sub_toNat haccount, hbytes, ?_, rfl, rfl⟩
    rw [if_neg hfw, Nat.sub_zero]

/-- A `retag` moves the bytes of the account between two counters. -/
theorem retag_spec (hne : kind ≠ account.kind)
    (hkind : account.bytes.toNat ≤ (state.bytes account.kind).toNat)
    (hroom : (state.bytes kind).toNat + account.bytes.toNat ≤ 18446744073709551615)
    (h : account.retag state kind = (state', account')) :
    account'.budget = account.budget ∧ account'.kind = kind ∧ account'.bytes = account.bytes ∧
      (∀ k, (state'.bytes k).toNat + (if account.kind = k then account.bytes.toNat else 0) =
        (state.bytes k).toNat + if kind = k then account.bytes.toNat else 0) ∧
      state'.owned = state.owned ∧ state'.limit = state.limit ∧ state'.peak = state.peak := by
  unfold ResourceAccount.retag at h
  rw [if_neg hne] at h
  cases h
  refine ⟨rfl, rfl, rfl, fun k => ?_, rfl, rfl, rfl⟩
  simp only [Function.update_of_ne hne]
  by_cases hk : kind = k
  · subst hk
    rw [Function.update_self, if_pos rfl, if_neg (Ne.symm hne), add_toNat hroom, Nat.add_zero]
  · rw [Function.update_of_ne (Ne.symm hk), if_neg hk]
    by_cases hold : account.kind = k
    · subst hold
      rw [Function.update_self, if_pos rfl, sub_toNat hkind]
      omega
    · rw [Function.update_of_ne (Ne.symm hold), if_neg hold]

end Account

/-! ## The books -/

namespace Sys

variable {s s' : Sys} {e : Event} {a b : Nat} {c : Charge} {n : UInt64} {kind : ResourceKind}
  {P : ResourceKind → Prop} [DecidablePred P] {charges : List Charge}
  {r : ResourceSnapshot × ResourceAccount}

theorem put_self : s.put b a (s.budget b, s.account a) s.charges = s := by
  unfold put
  rw [Function.update_eq_self, Function.update_eq_self]

theorem put_budget {b' : Nat} :
    (s.put b a r charges).budget b' = if b' = b then r.1 else s.budget b' :=
  Function.update_apply ..

theorem put_account {a' : Nat} :
    (s.put b a r charges).account a' = if a' = a then r.2 else s.account a' :=
  Function.update_apply ..

/-- A change that leaves an account where it was does not move the charges. -/
theorem live_put (hbudget : r.2.budget = (s.account a).budget)
    (hkind : r.2.kind = (s.account a).kind) {b' : Nat} :
    (s.put b a r charges).live b' P = ({ s with charges := charges } : Sys).live b' P := by
  refine Ledger.total_congr fun c _ => ?_
  rw [put_account]
  by_cases hc : c.account = a
  · rw [if_pos hc, hbudget, hkind, hc]
  · rw [if_neg hc]

theorem live_cons : ({ s with charges := c :: s.charges } : Sys).live b P =
    s.live b P +
      if (s.account c.account).budget = some b ∧ P (s.account c.account).kind then c.bytes.toNat
      else 0 := by
  unfold live
  rw [Ledger.total_cons, Nat.add_comm]

theorem live_erase (hc : c ∈ s.charges) : s.live b P =
    ({ s with charges := s.charges.erase c } : Sys).live b P +
      if (s.account c.account).budget = some b ∧ P (s.account c.account).kind then c.bytes.toNat
      else 0 := by
  unfold live
  rw [Ledger.total_erase hc, Nat.add_comm]

theorem held_erase (hc : c ∈ s.charges) : s.held a =
    Ledger.total (fun c : Charge => c.bytes.toNat) (fun c => c.account = a) (s.charges.erase c) +
      if c.account = a then c.bytes.toNat else 0 := by
  unfold held
  rw [Ledger.total_erase hc, Nat.add_comm]

/-- What an account holds is part of what is live on its budget. -/
theorem held_le_live (hb : (s.account a).budget = some b) (hP : P (s.account a).kind) :
    s.held a ≤ s.live b P :=
  Ledger.total_mono fun c _ hc => by rw [hc]; exact ⟨hb, hP⟩

/-- The charges of a kind, before and after an account takes another kind. -/
theorem live_retag (P : ResourceKind → Prop) [DecidablePred P] (b' : Nat)
    (r : ResourceSnapshot × ResourceAccount) (hb : (s.account a).budget = some b)
    (hbudget : r.2.budget = (s.account a).budget) :
    (s.put b a r s.charges).live b' P +
        (if b' = b ∧ P (s.account a).kind then s.held a else 0) =
      s.live b' P + if b' = b ∧ P r.2.kind then s.held a else 0 := by
  have hsplit : ∀ (k : ResourceKind) (t : Sys), t.charges = s.charges →
      (∀ c ∈ s.charges, (t.account c.account).budget = some b' ∧ P (t.account c.account).kind ↔
        if c.account = a then b' = b ∧ P k
        else (s.account c.account).budget = some b' ∧ P (s.account c.account).kind) →
      t.live b' P = Ledger.total (fun c : Charge => c.bytes.toNat)
          (fun c => c.account ≠ a ∧ (s.account c.account).budget = some b' ∧
            P (s.account c.account).kind) s.charges +
        if b' = b ∧ P k then s.held a else 0 := by
    intro k t hcharges ht
    unfold live
    rw [hcharges, Ledger.total_split (q := fun c => c.account ≠ a)]
    refine congrArg₂ (· + ·) (Ledger.total_congr fun c hc => ?_) ?_
    · rw [ht c hc]
      by_cases ha : c.account = a <;> simp [ha]
    · split
      · rename_i hk
        refine Ledger.total_congr fun c hc => ?_
        rw [ht c hc]
        by_cases ha : c.account = a <;> simp [ha, hk]
      · rename_i hk
        refine Ledger.total_eq_zero fun c hc => ?_
        rw [ht c hc]
        by_cases ha : c.account = a <;> simp [ha, hk]
  rw [hsplit r.2.kind (s.put b a r s.charges) rfl ?_, hsplit (s.account a).kind s rfl ?_]
  · omega
  · intro c _
    by_cases hc : c.account = a
    · rw [if_pos hc, hc, hb, Option.some.injEq, eq_comm]
    · rw [if_neg hc]
  · intro c _
    rw [put_account]
    by_cases hc : c.account = a
    · rw [if_pos hc, if_pos hc, hbudget, hb, Option.some.injEq, eq_comm]
    · rw [if_neg hc, if_neg hc]

theorem Accounted.init {limit : Nat → UInt64} {of : Nat → Option Nat × ResourceKind} :
    (Sys.init limit of).Accounted where
  kind_eq _ _ := rfl
  owned_eq _ := rfl
  owned_le _ := UInt64.le_iff_toNat_le.mpr (Nat.zero_le _)
  account_eq _ _ := rfl

theorem Accounted.acquire (h : s.Accounted) (a : Nat) (n : UInt64) :
    (s.acquire a n).2.Accounted := by
  unfold Sys.acquire
  cases hb : (s.account a).budget with
  | none =>
    -- charges without a budget are not counted
    have hlive : ∀ (b : Nat) (P : ResourceKind → Prop) [DecidablePred P],
        ({ s with charges := ⟨a, n⟩ :: s.charges } : Sys).live b P = s.live b P := by
      intro b P _
      rw [live_cons, if_neg (by simp [hb]), Nat.add_zero]
    refine ⟨fun b k => ?_, fun b => ?_, h.owned_le, fun a' ha' => ?_⟩
    · rw [hlive]
      exact h.kind_eq b k
    · rw [hlive]
      exact h.owned_eq b
    · have hne : a ≠ a' := by
        rintro rfl
        exact ha' hb
      unfold held
      rw [Ledger.total_cons, if_neg hne, Nat.zero_add]
      exact h.account_eq a' ha'
  | some b =>
    obtain ⟨result, state', account', hr⟩ :
        ∃ result state' account',
          (s.account a).acquire (s.budget b) n = (result, state', account') :=
      ⟨_, _, _, rfl⟩
    simp only [hr]
    cases result with
    | error e =>
      obtain ⟨rfl, rfl⟩ := acquire_error hr
      rw [if_neg (by simp), put_self]
      exact h
    | ok _ =>
      obtain ⟨hbudget, hkind, hbytes, hcount, howned, -, hle, -⟩ := acquire_ok hr (h.owned_le b)
      rw [if_pos rfl]
      refine ⟨fun b' k => ?_, fun b' => ?_, fun b' => ?_, fun a' ha' => ?_⟩
      · rw [live_put hbudget hkind, live_cons, put_budget, hb, ← h.kind_eq]
        by_cases hb' : b' = b
        · subst hb'
          rw [if_pos rfl, hcount]
          simp
        · rw [if_neg hb', if_neg (by simp [Ne.symm hb']), Nat.add_zero]
      · rw [live_put hbudget hkind, live_cons, put_budget, hb, ← h.owned_eq]
        by_cases hb' : b' = b
        · subst hb'
          rw [if_pos rfl, howned]
          simp
        · rw [if_neg hb', if_neg (by simp [Ne.symm hb']), Nat.add_zero]
      · rw [put_budget]
        by_cases hb' : b' = b
        · rw [if_pos hb']
          exact hle
        · rw [if_neg hb']
          exact h.owned_le b'
      · unfold held
        simp only [put_account] at ha' ⊢
        by_cases hat : a' = a
        · subst hat
          rw [if_pos rfl, hbytes, h.account_eq a' (by rw [hb]; simp)]
          simp only [put, Ledger.total_cons, if_true]
          exact Nat.add_comm _ _
        · rw [if_neg hat] at ha' ⊢
          rw [h.account_eq a' ha']
          simp only [put, Ledger.total_cons, if_neg (Ne.symm hat), Nat.zero_add]
          rfl

theorem le_live (hc : c ∈ s.charges) (hb : (s.account c.account).budget = some b)
    (hP : P (s.account c.account).kind) : c.bytes.toNat ≤ s.live b P :=
  Ledger.le_total (w := fun c : Charge => c.bytes.toNat)
    (p := fun c => (s.account c.account).budget = some b ∧ P (s.account c.account).kind) hc
    ⟨hb, hP⟩

theorem le_held (hc : c ∈ s.charges) : c.bytes.toNat ≤ s.held c.account :=
  Ledger.le_total (w := fun c : Charge => c.bytes.toNat) (p := fun d => d.account = c.account) hc rfl

/-- A charge is among what is counted, so its release underflows nowhere. -/
theorem Accounted.covers (h : s.Accounted) (hc : c ∈ s.charges)
    (hb : (s.account c.account).budget = some b) :
    c.bytes.toNat ≤ ((s.budget b).bytes (s.account c.account).kind).toNat ∧
      ((s.account c.account).kind ≠ .framework → c.bytes.toNat ≤ (s.budget b).owned.toNat) ∧
      c.bytes.toNat ≤ (s.account c.account).bytes.toNat := by
  refine ⟨?_, fun hk => ?_, ?_⟩
  · rw [h.kind_eq]
    exact le_live hc hb rfl
  · rw [h.owned_eq]
    exact le_live hc hb hk
  · rw [h.account_eq _ (by rw [hb]; nofun)]
    exact le_held hc

theorem Accounted.release (h : s.Accounted) (hc : c ∈ s.charges) : (s.release c).Accounted := by
  unfold Sys.release
  cases hb : (s.account c.account).budget with
  | none =>
    have hlive : ∀ (b : Nat) (P : ResourceKind → Prop) [DecidablePred P],
        s.live b P = ({ s with charges := s.charges.erase c } : Sys).live b P := by
      intro b P _
      rw [live_erase hc, if_neg (by simp [hb]), Nat.add_zero]
    refine ⟨fun b k => ?_, fun b => ?_, h.owned_le, fun a ha => ?_⟩
    · rw [← hlive]
      exact h.kind_eq b k
    · rw [← hlive]
      exact h.owned_eq b
    · have hne : c.account ≠ a := by
        rintro rfl
        exact ha hb
      have hheld := h.account_eq a ha
      rw [held_erase hc, if_neg hne, Nat.add_zero] at hheld
      exact hheld
  | some b =>
    obtain ⟨state', account', hr⟩ :
        ∃ state' account',
          (s.account c.account).release (s.budget b) c.bytes = (state', account') :=
      ⟨_, _, rfl⟩
    obtain ⟨hkindle, hownedle, haccountle⟩ := h.covers hc hb
    obtain ⟨hbudget, hkind, hbytes, hcount, howned, hlimit, -⟩ :=
      release_spec hkindle hownedle haccountle hr
    simp only [hr]
    refine ⟨fun b' k => ?_, fun b' => ?_, fun b' => ?_, fun a' ha' => ?_⟩
    · have hlive := h.kind_eq b' k
      rw [live_erase hc, hb] at hlive
      rw [live_put hbudget hkind, put_budget]
      by_cases hb' : b' = b
      · subst hb'
        rw [if_pos rfl, hcount, hlive]
        simp
      · rw [if_neg hb', hlive, if_neg (by simp [Ne.symm hb']), Nat.add_zero]
    · have hlive := h.owned_eq b'
      rw [live_erase hc, hb] at hlive
      rw [live_put hbudget hkind, put_budget]
      by_cases hb' : b' = b
      · subst hb'
        rw [if_pos rfl, howned, hlive]
        simp
      · rw [if_neg hb', hlive, if_neg (by simp [Ne.symm hb']), Nat.add_zero]
    · have hle := h.owned_le b'
      rw [put_budget]
      by_cases hb' : b' = b
      · subst hb'
        rw [UInt64.le_iff_toNat_le] at hle
        rw [if_pos rfl, UInt64.le_iff_toNat_le]
        simp only [howned, hlimit]
        omega
      · rw [if_neg hb']
        exact hle
    · simp only [put_account] at ha' ⊢
      by_cases hat : a' = c.account
      · have hheld := h.account_eq c.account (by rw [hb]; nofun)
        rw [held_erase hc, if_pos rfl] at hheld
        rw [if_pos hat, hat, hbytes, hheld, Nat.add_sub_cancel]
        rfl
      · rw [if_neg hat] at ha' ⊢
        have hheld := h.account_eq a' ha'
        rw [held_erase hc, if_neg (Ne.symm hat), Nat.add_zero] at hheld
        exact hheld

/-- The kinds of a `retag` that is not a no-op: both are owned. -/
theorem Stays.owned (hstays : s.Stays (.retag a kind)) (hne : kind ≠ (s.account a).kind) :
    (s.account a).kind ≠ .framework ∧ kind ≠ .framework := by
  constructor
  · exact fun hk => hne ((hstays.mp hk).trans hk.symm)
  · exact fun hk => hne (hk.trans (hstays.mpr hk).symm)

/-- The bytes that a `retag` between owned kinds moves are there, and there is room for them. -/
theorem Accounted.movable (h : s.Accounted) (hb : (s.account a).budget = some b)
    (hstays : s.Stays (.retag a kind)) (hne : kind ≠ (s.account a).kind) :
    (s.account a).bytes.toNat ≤ ((s.budget b).bytes (s.account a).kind).toNat ∧
      ((s.budget b).bytes kind).toNat + (s.account a).bytes.toNat ≤ 18446744073709551615 := by
  obtain ⟨hold, hnew⟩ := Stays.owned hstays hne
  rw [h.account_eq a (by rw [hb]; nofun), h.kind_eq, h.kind_eq]
  refine ⟨held_le_live hb rfl, ?_⟩
  -- the two are separate parts of what is owned
  have hsplit : s.live b (· ≠ .framework) = s.live b (fun k => k ≠ .framework ∧ k = kind) +
      s.live b (fun k => k ≠ .framework ∧ k ≠ kind) := by
    unfold live
    rw [Ledger.total_split (q := fun c => (s.account c.account).kind = kind)]
    exact congrArg₂ (· + ·) (Ledger.total_congr fun _ _ => and_assoc)
      (Ledger.total_congr fun _ _ => and_assoc)
  have hfirst : s.live b (· = kind) ≤ s.live b (fun k => k ≠ .framework ∧ k = kind) :=
    Ledger.total_mono fun c _ hc => ⟨hc.1, by rw [hc.2]; exact hnew, hc.2⟩
  have hsecond : s.held a ≤ s.live b (fun k => k ≠ .framework ∧ k ≠ kind) :=
    held_le_live hb ⟨hold, Ne.symm hne⟩
  have howned := h.owned_eq b
  have hlt := (s.budget b).owned.toNat_lt
  omega

theorem Accounted.retag (h : s.Accounted) (hstays : s.Stays (.retag a kind)) :
    (s.retag a kind).Accounted := by
  unfold Sys.retag
  cases hb : (s.account a).budget with
  | none => exact h
  | some b =>
    simp only
    by_cases hne : kind = (s.account a).kind
    · unfold ResourceAccount.retag
      rw [if_pos hne, put_self]
      exact h
    · obtain ⟨state', account', hr⟩ :
          ∃ state' account', (s.account a).retag (s.budget b) kind = (state', account') :=
        ⟨_, _, rfl⟩
      have hfw := Stays.owned hstays hne
      have hheld := h.account_eq a (by rw [hb]; nofun)
      obtain ⟨hkindle, hroom⟩ := h.movable hb hstays hne
      obtain ⟨hbudget, hkind, hbytes, hcount, howned, hlimit, -⟩ := retag_spec hne hkindle hroom hr
      simp only [hr]
      refine ⟨fun b' k => ?_, fun b' => ?_, fun b' => ?_, fun a' ha' => ?_⟩
      · have hlive := live_retag (· = k) b' (state', account') hb hbudget
        simp only [hkind] at hlive
        rw [put_budget]
        by_cases hb' : b' = b
        · subst hb'
          have hk := hcount k
          rw [hheld, h.kind_eq] at hk
          simp only [true_and] at hlive
          rw [if_pos rfl]
          show (state'.bytes k).toNat = _
          omega
        · simp only [hb', false_and, if_false, Nat.add_zero] at hlive
          rw [if_neg hb', hlive]
          exact h.kind_eq b' k
      · have hlive := live_retag (· ≠ .framework) b' (state', account') hb hbudget
        have hnew : account'.kind ≠ .framework := hkind ▸ hfw.2
        have hsame := h.owned_eq b'
        rw [put_budget]
        by_cases hb' : b' = b
        · subst hb'
          rw [if_pos ⟨rfl, hfw.1⟩, if_pos ⟨rfl, hnew⟩] at hlive
          rw [if_pos rfl]
          show state'.owned.toNat = _
          rw [howned]
          omega
        · rw [if_neg fun hc => hb' hc.1, if_neg fun hc => hb' hc.1] at hlive
          rw [if_neg hb']
          omega
      · rw [put_budget]
        split
        · rename_i hb'
          subst hb'
          simp only [howned, hlimit]
          exact h.owned_le b'
        · exact h.owned_le b'
      · have hsame : (s.put b a (state', account') s.charges).held a' = s.held a' := rfl
        rw [hsame]
        simp only [put_account] at ha' ⊢
        by_cases hat : a' = a
        · subst hat
          rw [if_pos rfl, hbytes]
          exact hheld
        · rw [if_neg hat] at ha' ⊢
          exact h.account_eq a' ha'

theorem Accounted.step (h : s.Accounted) (hs : Kept s e s') : s'.Accounted := by
  obtain ⟨hs, hstays⟩ := hs
  cases hs with
  | acquire => exact h.acquire _ _
  | release hc => exact h.release hc
  | retag => exact h.retag hstays

/-- A step keeps the limits and raises a peak to what is owned. -/
theorem Accounted.peak_step (h : s.Accounted) (hs : Kept s e s') (b : Nat) :
    (s'.budget b).limit = (s.budget b).limit ∧
      ((s.budget b).owned ≤ (s.budget b).peak →
        (s'.budget b).peak = max (s.budget b).peak (s'.budget b).owned) := by
  have hsame : ∀ {t : ResourceSnapshot}, t.owned ≤ t.peak → t.peak = max t.peak t.owned :=
    fun hle => (max_eq_self hle).symm
  obtain ⟨hs, hstays⟩ := hs
  cases hs with
  | @acquire a n =>
    unfold Sys.acquire
    cases hb : (s.account a).budget with
    | none => exact ⟨rfl, hsame⟩
    | some b' =>
      simp only [put_budget]
      by_cases hat : b = b'
      · subst hat
        rw [if_pos rfl]
        obtain ⟨result, state', account', hr⟩ :
            ∃ result state' account',
              (s.account a).acquire (s.budget b) n = (result, state', account') :=
          ⟨_, _, _, rfl⟩
        cases result with
        | error e =>
          rw [hr, (acquire_error hr).1]
          exact ⟨rfl, hsame⟩
        | ok _ =>
          obtain ⟨-, -, -, -, -, hlimit, -, hpeak⟩ := acquire_ok hr (h.owned_le b)
          rw [hr]
          exact ⟨hlimit, hpeak⟩
      · rw [if_neg hat]
        exact ⟨rfl, hsame⟩
  | @release c hc =>
    unfold Sys.release
    cases hb : (s.account c.account).budget with
    | none => exact ⟨rfl, hsame⟩
    | some b' =>
      simp only [put_budget]
      by_cases hat : b = b'
      · subst hat
        rw [if_pos rfl]
        obtain ⟨state', account', hr⟩ :
            ∃ state' account',
              (s.account c.account).release (s.budget b) c.bytes = (state', account') :=
          ⟨_, _, rfl⟩
        obtain ⟨hkindle, hownedle, haccountle⟩ := h.covers hc hb
        obtain ⟨-, -, -, -, howned, hlimit, hpeak⟩ :=
          release_spec hkindle hownedle haccountle hr
        rw [hr]
        refine ⟨hlimit, fun hle => ?_⟩
        simp only [hpeak]
        refine (max_eq_self ?_).symm
        rw [UInt64.le_iff_toNat_le] at hle ⊢
        omega
      · rw [if_neg hat]
        exact ⟨rfl, hsame⟩
  | @retag a kind =>
    unfold Sys.retag
    cases hb : (s.account a).budget with
    | none => exact ⟨rfl, hsame⟩
    | some b' =>
      simp only [put_budget]
      by_cases hat : b = b'
      · subst hat
        rw [if_pos rfl]
        by_cases hne : kind = (s.account a).kind
        · unfold ResourceAccount.retag
          rw [if_pos hne]
          exact ⟨rfl, hsame⟩
        · obtain ⟨state', account', hr⟩ :
              ∃ state' account', (s.account a).retag (s.budget b) kind = (state', account') :=
            ⟨_, _, rfl⟩
          obtain ⟨hkindle, hroom⟩ := h.movable hb hstays hne
          obtain ⟨-, -, -, -, howned, hlimit, hpeak⟩ := retag_spec hne hkindle hroom hr
          rw [hr]
          simp only [howned, hlimit, hpeak]
          exact ⟨trivial, hsame⟩
      · rw [if_neg hat]
        exact ⟨rfl, hsame⟩

theorem Accounted.run {es : List Event} (h : s.Accounted) (hp : Path Kept s es s') :
    s'.Accounted := hp.invariant h fun _ _ _ hs ha => ha.step hs

/-- In every state of a run the books balance: what is owned is the sum of the live charges
outside the framework's kind, within the limit, and each counter is the sum of its kind. The peak
is the most that was owned on the way. A refused `acquire` changes nothing, in any state. -/
theorem budget_accounting :
    (∀ (limit : Nat → UInt64) (of : Nat → Option Nat × ResourceKind) (es : List Event) (s : Sys),
      Path Kept (Sys.init limit of) es s → ∀ b,
        (s.budget b).owned.toNat = s.live b (· ≠ .framework) ∧
          (s.budget b).owned ≤ limit b ∧ (s.budget b).limit = limit b ∧
          ((s.budget b).limit - (s.budget b).owned).toNat =
            (s.budget b).limit.toNat - (s.budget b).owned.toNat ∧
          (∀ k, ((s.budget b).bytes k).toNat = s.live b (· = k)) ∧
          (∀ a, (s.account a).budget = some b → (s.account a).bytes.toNat = s.held a) ∧
          (∀ es₁ es₂ t, es = es₁ ++ es₂ → Path Kept (Sys.init limit of) es₁ t →
            Path Kept t es₂ s → (t.budget b).owned ≤ (s.budget b).peak) ∧
          ∃ es₁ es₂ t, es = es₁ ++ es₂ ∧ Path Kept (Sys.init limit of) es₁ t ∧
            Path Kept t es₂ s ∧ (t.budget b).owned = (s.budget b).peak) ∧
      ∀ (s : Sys) (a : Nat) (n : UInt64) (e : ResourceError),
        (s.acquire a n).1 = .error e → (s.acquire a n).2 = s := by
  constructor
  · intro limit of es s hp b
    have h : s.Accounted := Accounted.init.run hp
    have hlimit : (s.budget b).limit = limit b := by
      refine (hp.invariant (P := fun t => t.Accounted ∧ (t.budget b).limit = limit b)
        ⟨Accounted.init, rfl⟩ fun t e t' hs ht => ?_).2
      exact ⟨ht.1.step hs, (ht.1.peak_step hs b).1.trans ht.2⟩
    have hpeak := hp.peak (P := Accounted) (f := fun t => (t.budget b).owned.toNat)
      (m := fun t => (t.budget b).peak.toNat) Accounted.init rfl (fun _ _ _ hs ha => ha.step hs)
      fun t e t' hs ht hle => by
        rw [(ht.peak_step hs b).2 (UInt64.le_iff_toNat_le.mpr hle), max_toNat]
    obtain ⟨hbelow, es₁, es₂, t, hes, ht, hrest, hmax⟩ := hpeak
    refine ⟨h.owned_eq b, hlimit ▸ h.owned_le b, hlimit,
      sub_toNat (UInt64.le_iff_toNat_le.mp (h.owned_le b)), h.kind_eq b,
      fun a ha => h.account_eq a (by rw [ha]; nofun), ?_, es₁, es₂, t, hes, ht, hrest, ?_⟩
    · exact fun es₁ es₂ t hes ht hrest =>
        UInt64.le_iff_toNat_le.mpr (hbelow es₁ es₂ t hes ht hrest)
    · exact UInt64.toNat_inj.mp hmax
  · intro s a n e he
    unfold Sys.acquire at he ⊢
    cases hb : (s.account a).budget with
    | none => simp [hb] at he
    | some b =>
      obtain ⟨result, state', account', hr⟩ :
          ∃ result state' account',
            (s.account a).acquire (s.budget b) n = (result, state', account') :=
        ⟨_, _, _, rfl⟩
      simp only [hb, hr] at he ⊢
      subst he
      obtain ⟨rfl, rfl⟩ := acquire_error hr
      rw [if_neg (by simp), put_self]

/-- Two accounts of one budget: scratch memory, and frames of the framework. -/
def twoAccounts : Nat → Option Nat × ResourceKind
  | 0 => (some 0, .inflight)
  | _ => (some 0, .framework)

/-- The second request of the first account is refused; its chunk is then cached and freed. -/
def refusedRun : List Event :=
  [.acquire 0 60, .acquire 1 500, .acquire 0 50, .retag 0 .cached, .release ⟨0, 60⟩]

theorem budget_accounting_refused : ∃ s, Path Kept (Sys.init (fun _ => 100) twoAccounts) refusedRun s ∧
    (s.budget 0).peak = 60 ∧ (s.budget 0).owned ≤ 100 := by
  have hrun : ∃ s, Path Kept (Sys.init (fun _ => 100) twoAccounts) refusedRun s ∧
      (s.budget 0).peak = 60 :=
    ⟨_, .cons ⟨.acquire, trivial⟩ (.cons ⟨.acquire, trivial⟩ (.cons ⟨.acquire, trivial⟩
      (.cons ⟨.retag, by show _ ↔ _; decide⟩ (.cons ⟨.release (by decide), trivial⟩ (.nil _))))), by decide⟩
  obtain ⟨s, hpath, hpeak⟩ := hrun
  exact ⟨s, hpath, hpeak, (budget_accounting.1 _ _ _ s hpath 0).2.1⟩

/-- A `retag` out of the framework's kind leaves `owned` behind: frames that become a cached
chunk are live and not owned. -/
theorem retag_unowned : ¬∀ (limit : Nat → UInt64) (of : Nat → Option Nat × ResourceKind)
    (es : List Event) (s : Sys), Path Step (Sys.init limit of) es s →
      ∀ b, (s.budget b).owned.toNat = s.live b (· ≠ .framework) := by
  intro h
  have hrun := h (fun _ => 100) twoAccounts [.acquire 1 5, .retag 1 .cached] _
    (.cons .acquire (.cons .retag (.nil _))) 0
  revert hrun
  decide

end Sys

end NssFactory.Resources
