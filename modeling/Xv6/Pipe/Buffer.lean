/-
# `Xv6.Pipe.Buffer` — `struct pipe` and the two copying loops

The bytes of a pipe are in an array of `PIPESIZE` cells between the counters
`nread` and `nwrite`, which are `uint` and wrap.  `store` and `take` are the loops
of `pipewrite` and `piperead` between two points where the lock is given up;
`Pipe.Holds` says which bytes are pending, and the two loops are the operations of
a bounded queue on them.
-/
import Xv6.Lib.Fifo

namespace Xv6.Pipes

/-- Bytes a pipe can hold. -/
def PIPESIZE : Nat := 512

instance : NeZero PIPESIZE := ⟨by decide⟩

structure Pipe where
  data : Fin PIPESIZE → UInt8
  nread : UInt32
  nwrite : UInt32
  readopen : Bool
  writeopen : Bool

namespace Pipe

/-- What `pipealloc` makes of a page with content `data`. -/
def init (data : Fin PIPESIZE → UInt8) : Pipe := ⟨data, 0, 0, true, true⟩

/-- `p->nwrite == p->nread + PIPESIZE`. -/
def full (p : Pipe) : Bool := p.nwrite == p.nread + UInt32.ofNat PIPESIZE

/-- `p->nread == p->nwrite`. -/
def empty (p : Pipe) : Bool := p.nread == p.nwrite

/-- `p->data[p->nwrite++ % PIPESIZE] = b`. -/
def put (p : Pipe) (b : UInt8) : Pipe :=
  { p with data := Function.update p.data (Fin.ofNat PIPESIZE p.nwrite.toNat) b
           nwrite := p.nwrite + 1 }

/-- `p->data[p->nread % PIPESIZE]`. -/
def next (p : Pipe) : UInt8 := p.data (Fin.ofNat PIPESIZE p.nread.toNat)

/-- `p->nread++`. -/
def advance (p : Pipe) : Pipe := { p with nread := p.nread + 1 }

end Pipe

/-- The loop of `pipewrite` until it is done or finds the pipe full: the bytes left. -/
def store : List UInt8 → Pipe → List UInt8 × Pipe
  | [], p => ([], p)
  | b :: bs, p => if p.full then (b :: bs, p) else store bs (p.put b)

/-- The second loop of `piperead`, for up to `n` bytes. -/
def take : Nat → Pipe → List UInt8 × Pipe
  | 0, p => ([], p)
  | n + 1, p =>
    if p.empty then ([], p)
    else
      let r := take n p.advance
      (p.next :: r.1, r.2)

/-! ## The pending bytes -/

/-- The bytes `q` are pending in `p`. -/
def Pipe.Holds (p : Pipe) (q : List UInt8) : Prop :=
  Fifo.Rep PIPESIZE (2 ^ 32) p.data p.nread.toNat p.nwrite.toNat q

namespace Pipe.Holds

variable {p : Pipe} {q : List UInt8}

theorem pipesize_lt : PIPESIZE < 2 ^ 32 := by decide

theorem pipesize_dvd : PIPESIZE ∣ 2 ^ 32 := by decide

theorem init (data : Fin PIPESIZE → UInt8) : (Pipe.init data).Holds [] :=
  .nil data (show (0 : Nat) < 2 ^ 32 by decide)

/-- `nwrite - nread` is the number of pending bytes, whether or not the counters have wrapped. -/
theorem length_eq (h : p.Holds q) : (p.nwrite - p.nread).toNat = q.length := by
  rw [UInt32.toNat_sub, Nat.add_comm]
  exact h.sub_mod pipesize_lt

theorem empty_iff (h : p.Holds q) : p.empty = true ↔ q = [] := by
  rw [← h.eq_iff pipesize_lt, Pipe.empty, beq_iff_eq, ← UInt32.toNat_inj]
  exact eq_comm

theorem full_iff (h : p.Holds q) : p.full = true ↔ q.length = PIPESIZE := by
  rw [← h.eq_add_iff pipesize_lt, Pipe.full, beq_iff_eq, ← UInt32.toNat_inj, UInt32.toNat_add]
  rfl

theorem put (h : p.Holds q) (hf : p.full = false) (b : UInt8) : (p.put b).Holds (q ++ [b]) := by
  have hlt : q.length < PIPESIZE := by
    refine Nat.lt_of_le_of_ne h.length fun he => ?_
    rw [h.full_iff.mpr he] at hf
    cases hf
  have := Fifo.Rep.push h pipesize_dvd hlt b
  rwa [Pipe.Holds, Pipe.put, UInt32.toNat_add]

theorem advance {b : UInt8} (h : p.Holds (b :: q)) : p.next = b ∧ p.advance.Holds q := by
  obtain ⟨h₁, h₂⟩ := Fifo.Rep.pop h pipesize_dvd
  refine ⟨h₁, ?_⟩
  rwa [Pipe.Holds, Pipe.advance, UInt32.toNat_add]

end Pipe.Holds

/-! ## The loops -/

/-- The ends stay open, or closed. -/
theorem store_open : ∀ (src : List UInt8) (p : Pipe),
    (store src p).2.readopen = p.readopen ∧ (store src p).2.writeopen = p.writeopen
  | [], p => ⟨rfl, rfl⟩
  | b :: bs, p => by
    rw [store]
    split
    · exact ⟨rfl, rfl⟩
    · exact store_open bs (p.put b)

theorem take_open : ∀ (n : Nat) (p : Pipe),
    (take n p).2.readopen = p.readopen ∧ (take n p).2.writeopen = p.writeopen
  | 0, p => ⟨rfl, rfl⟩
  | n + 1, p => by
    rw [take]
    split
    · exact ⟨rfl, rfl⟩
    · exact take_open n p.advance

/-- `store` appends a first part of the bytes, and stops early at a full pipe only. -/
theorem store_spec : ∀ (src : List UInt8) {q : List UInt8} {p : Pipe}, p.Holds q →
    ∃ put, src = put ++ (store src p).1 ∧ (store src p).2.Holds (q ++ put) ∧
      ((store src p).1 ≠ [] → (store src p).2.full = true)
  | [], q, p, h => ⟨[], rfl, by rwa [List.append_nil], fun hne => absurd rfl hne⟩
  | b :: bs, q, p, h => by
    rw [store]
    by_cases hf : p.full = true
    · rw [if_pos hf]
      exact ⟨[], rfl, by rwa [List.append_nil], fun _ => hf⟩
    · rw [if_neg hf]
      obtain ⟨put, h₁, h₂, h₃⟩ := store_spec bs (h.put (Bool.eq_false_iff.mpr hf) b)
      refine ⟨b :: put, ?_, ?_, h₃⟩
      · rw [List.cons_append, ← h₁]
      · rwa [List.append_assoc, List.singleton_append] at h₂

/-- `take` removes as many bytes as are asked for, or all. -/
theorem take_spec : ∀ {n : Nat} {q : List UInt8} {p : Pipe}, p.Holds q →
    (take n p).1 = q.take n ∧ (take n p).2.Holds (q.drop n)
  | 0, q, p, h => ⟨rfl, h⟩
  | n + 1, [], p, h => by
    rw [take, if_pos (h.empty_iff.mpr rfl)]
    exact ⟨rfl, h⟩
  | n + 1, b :: q, p, h => by
    have hne : ¬ p.empty = true := fun he => nomatch h.empty_iff.mp he
    obtain ⟨h₁, h₂⟩ := h.advance
    obtain ⟨h₃, h₄⟩ := take_spec (n := n) h₂
    rw [take, if_neg hne, List.take_succ_cons, List.drop_succ_cons]
    exact ⟨congrArg₂ List.cons h₁ h₃, h₄⟩

end Xv6.Pipes
