/-
# `Xv6.Console.Discipline` — interrupts, readers and what they are given

The machine has interrupts, which hand any number of characters to `consoleintr`,
and any number of processes in `consoleread`, which may be killed.  A turn of a
reader is what it does between two points where it gives up `cons.lock`.  The
machine is one definition over a `Device`, so that the buffer of `console.c` and
the lists of `Line` run under the same events; `Refines.run` carries `Input.Holds`
along a run.

A history is kept of the calls: which call took which byte, and what each returned.
-/
import Xv6.Console.Input
import Xv6.Lib.Trace

namespace Xv6.Console

open List

/-! ## The machine -/

/-- What the machine asks of the buffer: one character of `consoleintr`, and the loop of
`consoleread` up to its next sleep or its end. -/
structure Device (σ : Type) where
  key : UInt8 → σ → σ × Bool
  read : Nat → List UInt8 → σ → Progress × σ × List UInt8

/-- The buffer of `console.c`. -/
def console : Device Input := ⟨Input.key, Input.read⟩

/-- The lists it stands for. -/
def tty : Device Line := ⟨Line.key, Line.read⟩

/-- A call of `consoleread`: its number in the history, the size asked for, and how far it
has come. -/
structure Call where
  id : Nat
  size : Nat
  left : Nat
  got : List UInt8
deriving DecidableEq

/-- A process and `consoleread`. -/
inductive Reader where
  | out
  | asleep (c : Call)
  | awake (c : Call)
deriving DecidableEq

namespace Reader

/-- The effect of a wakeup. -/
def wake : Reader → Reader
  | .asleep c => .awake c
  | .awake c => .awake c
  | .out => .out

def call : Reader → Option Call
  | .out => none
  | .asleep c => some c
  | .awake c => some c

@[simp] theorem call_wake (r : Reader) : r.wake.call = r.call := by
  cases r <;> rfl

end Reader

/-- A call that has returned: with bytes, or with -1.  `stop` counts the bytes taken by all
calls up to its return. -/
structure Result where
  id : Nat
  size : Nat
  stop : Nat
  value : Option (List UInt8)
deriving DecidableEq

/-- The processes and the history. -/
structure Host (P : Type) where
  reader : P → Reader
  killed : P → Bool
  calls : Nat
  /-- The bytes taken, each with the call that took it. -/
  log : List (Nat × UInt8)
  results : List Result

structure State (σ P : Type) where
  dev : σ
  host : Host P

/-- An interrupt with the characters `getc` gives, a call of `consoleread`, a turn of a process
that was woken, a kill. -/
inductive Event (P : Type) where
  | intr (cs : List UInt8)
  | read (p : P) (n : Int)
  | resume (p : P)
  | kill (p : P)

namespace Host

variable {P : Type}

def init : Host P := ⟨fun _ => .out, fun _ => false, 0, [], []⟩

def wakeup (h : Host P) : Host P :=
  ⟨fun p => (h.reader p).wake, h.killed, h.calls, h.log, h.results⟩

/-- A new call gets the next number. -/
def enter (h : Host P) : Host P := ⟨h.reader, h.killed, h.calls + 1, h.log, h.results⟩

variable [DecidableEq P]

/-- `kill` marks the process and wakes it from any sleep. -/
def kill (h : Host P) (p : P) : Host P :=
  ⟨Function.update h.reader p (h.reader p).wake, Function.update h.killed p true, h.calls, h.log,
    h.results⟩

/-- The call of `p` returns, having taken `m` in this turn. -/
def finish (h : Host P) (p : P) (c : Call) (m : List UInt8) (value : Option (List UInt8)) :
    Host P :=
  ⟨Function.update h.reader p .out, h.killed, h.calls, h.log ++ m.map (Prod.mk c.id),
    h.results ++ [⟨c.id, c.size, h.log.length + m.length, value⟩]⟩

def sleep (h : Host P) (p : P) (c : Call) (m : List UInt8) : Host P :=
  ⟨Function.update h.reader p (.asleep c), h.killed, h.calls, h.log ++ m.map (Prod.mk c.id),
    h.results⟩

/-- A turn of `p` in the call `c`, that took `m`.  A process that would sleep returns -1
instead when it has been killed. -/
def turn (h : Host P) (p : P) (c : Call) (m : List UInt8) : Progress → Host P
  | .done got => h.finish p c m (some got)
  | .wait left got =>
    if h.killed p then h.finish p c m none else h.sleep p ⟨c.id, c.size, left, got⟩ m

end Host

section Machine

variable {σ P : Type} [DecidableEq P] (D : Device σ)

/-- The loop of `consoleintr`; the flag says that it wakes the readers. -/
def Device.intr : List UInt8 → σ → σ × Bool
  | [], d => (d, false)
  | c :: cs, d => ((intr cs (D.key c d).1).1, (D.key c d).2 || (intr cs (D.key c d).1).2)

def Device.turn (s : State σ P) (p : P) (c : Call) : State σ P :=
  ⟨(D.read c.left c.got s.dev).2.1,
    s.host.turn p c (D.read c.left c.got s.dev).2.2 (D.read c.left c.got s.dev).1⟩

/-- The call that `consoleread(ip, dst, n)` starts: nothing is read for a negative `n`. -/
def Host.newCall (h : Host P) (n : Int) : Call := ⟨h.calls, n.toNat, n.toNat, []⟩

def step (s : State σ P) : Event P → Option (State σ P)
  | .intr cs =>
    some ⟨(D.intr cs s.dev).1, if (D.intr cs s.dev).2 then s.host.wakeup else s.host⟩
  | .read p n =>
    if s.host.reader p = .out then some (D.turn ⟨s.dev, s.host.enter⟩ p (s.host.newCall n))
    else none
  | .resume p =>
    match s.host.reader p with
    | .awake c => some (D.turn s p c)
    | _ => none
  | .kill p => some ⟨s.dev, s.host.kill p⟩

/-- A run from an idle machine. -/
abbrev Runs (d : σ) : List (Event P) → State σ P → Prop := Trace.Run (step D) ⟨d, Host.init⟩

/-- What a step does. -/
inductive Stepped (s : State σ P) : Event P → State σ P → Prop
  | intr (cs : List UInt8) : Stepped s (.intr cs)
      ⟨(D.intr cs s.dev).1, if (D.intr cs s.dev).2 then s.host.wakeup else s.host⟩
  | read (p : P) (n : Int) (h : s.host.reader p = .out) :
      Stepped s (.read p n) (D.turn ⟨s.dev, s.host.enter⟩ p (s.host.newCall n))
  | resume (p : P) (c : Call) (h : s.host.reader p = .awake c) :
      Stepped s (.resume p) (D.turn s p c)
  | kill (p : P) : Stepped s (.kill p) ⟨s.dev, s.host.kill p⟩

theorem stepped_of_step {s s' : State σ P} {e : Event P} (h : step D s e = some s') :
    Stepped D s e s' := by
  cases e with
  | intr cs =>
    cases h
    exact .intr cs
  | read p n =>
    obtain ⟨hp, hs⟩ := Option.ite_none_right_eq_some.mp h
    cases hs
    exact .read p n hp
  | resume p =>
    rw [step] at h
    split at h
    · rename_i c hc
      cases h
      exact .resume p c hc
    · cases h
  | kill p =>
    cases h
    exact .kill p

theorem step_of_stepped {s s' : State σ P} {e : Event P} (h : Stepped D s e s') :
    step D s e = some s' := by
  cases h with
  | intr cs => rfl
  | read p n hp => rw [step, if_pos hp]
  | resume p c hc => rw [step, hc]
  | kill p => rfl

end Machine

/-! ## The buffer refines the lists -/

section Refines

variable {σ τ P : Type} [DecidableEq P]

/-- Two devices that give the same answers while `R` relates them, and stay related. -/
structure Refines (D : Device σ) (E : Device τ) (R : σ → τ → Prop) : Prop where
  key : ∀ {d t} (_ : R d t) (c : UInt8),
    R (D.key c d).1 (E.key c t).1 ∧ (D.key c d).2 = (E.key c t).2
  read : ∀ {d t} (_ : R d t) (n : Nat) (got : List UInt8),
    (D.read n got d).1 = (E.read n got t).1 ∧ R (D.read n got d).2.1 (E.read n got t).2.1 ∧
      (D.read n got d).2.2 = (E.read n got t).2.2

variable {D : Device σ} {E : Device τ} {R : σ → τ → Prop}

theorem Refines.intr (h : Refines D E R) (cs : List UInt8) : ∀ {d : σ} {t : τ}, R d t →
    R (D.intr cs d).1 (E.intr cs t).1 ∧ (D.intr cs d).2 = (E.intr cs t).2 := by
  induction cs with
  | nil =>
    intro d t hR
    exact ⟨hR, rfl⟩
  | cons c cs ih =>
    intro d t hR
    obtain ⟨h₁, h₂⟩ := h.key hR c
    obtain ⟨h₃, h₄⟩ := ih h₁
    refine ⟨h₃, ?_⟩
    rw [Device.intr, Device.intr, h₂, h₄]

theorem Refines.turn (h : Refines D E R) {s : State σ P} {t : State τ P} (hR : R s.dev t.dev)
    (hh : t.host = s.host) (p : P) (c : Call) :
    R (D.turn s p c).dev (E.turn t p c).dev ∧ (E.turn t p c).host = (D.turn s p c).host := by
  obtain ⟨h₁, h₂, h₃⟩ := h.read hR c.left c.got
  refine ⟨h₂, ?_⟩
  rw [Device.turn, Device.turn, h₁, h₃, hh]

theorem Refines.step (h : Refines D E R) {s s' : State σ P} {t : State τ P} {e : Event P}
    (hR : R s.dev t.dev) (hh : t.host = s.host) (hs : Console.step D s e = some s') :
    ∃ t', Console.step E t e = some t' ∧ R s'.dev t'.dev ∧ t'.host = s'.host := by
  cases stepped_of_step D hs with
  | intr cs =>
    obtain ⟨h₁, h₂⟩ := h.intr cs hR
    refine ⟨_, step_of_stepped E (.intr cs), h₁, ?_⟩
    rw [h₂, hh]
  | read p n hp =>
    have hturn := h.turn (s := ⟨s.dev, s.host.enter⟩) (t := ⟨t.dev, t.host.enter⟩) hR
      (congrArg Host.enter hh) p (s.host.newCall n)
    refine ⟨_, step_of_stepped E (.read p n (by rw [hh]; exact hp)), ?_⟩
    rw [show t.host.newCall n = s.host.newCall n by rw [hh]]
    exact hturn
  | resume p c hc =>
    exact ⟨_, step_of_stepped E (.resume p c (by rw [hh]; exact hc)), h.turn hR hh p c⟩
  | kill p => exact ⟨_, step_of_stepped E (.kill p), hR, congrArg (Host.kill · p) hh⟩

/-- **A run of one machine is a run of the other**, with the same history. -/
theorem Refines.run (h : Refines D E R) {d : σ} {t₀ : τ} (hR : R d t₀) {es : List (Event P)}
    {s : State σ P} (hrun : Runs D d es s) :
    ∃ t, Runs E t₀ es t ∧ R s.dev t.dev ∧ t.host = s.host := by
  refine hrun.invariant (I := fun es s => ∃ t, Runs E t₀ es t ∧ R s.dev t.dev ∧ t.host = s.host)
    ⟨_, .nil, hR, rfl⟩ ?_
  rintro es s e s' ⟨t, ht, hd, hh⟩ hs
  obtain ⟨t', ht', hd', hh'⟩ := h.step hd hh hs
  exact ⟨t', .snoc e ht ht', hd', hh'⟩

end Refines

/-- The buffer of `console.c` refines the lists. -/
theorem console_refines : Refines console tty Input.Holds :=
  ⟨fun h c => h.key c, fun h n got => h.read n got⟩

/-! ## What the calls are given -/

/-- The bytes a call has taken, in the order it took them. -/
def bytesOf (id : Nat) (log : List (Nat × UInt8)) : List UInt8 :=
  (log.filter fun x => x.1 = id).map Prod.snd

theorem bytesOf_append_self (id : Nat) (log : List (Nat × UInt8)) (m : List UInt8) :
    bytesOf id (log ++ m.map (Prod.mk id)) = bytesOf id log ++ m := by
  have hm : (m.map (Prod.mk id)).filter (fun x => x.1 = id) = m.map (Prod.mk id) := by
    rw [filter_eq_self]
    intro x hx
    obtain ⟨b, -, rfl⟩ := mem_map.mp hx
    exact decide_eq_true rfl
  rw [bytesOf, filter_append, map_append, hm, map_map]
  exact congrArg _ (map_id m)

theorem bytesOf_append_of_ne {id id' : Nat} (h : id ≠ id') (log : List (Nat × UInt8))
    (m : List UInt8) : bytesOf id (log ++ m.map (Prod.mk id')) = bytesOf id log := by
  have hm : (m.map (Prod.mk id')).filter (fun x => x.1 = id) = [] := by
    rw [filter_eq_nil_iff]
    intro x hx
    obtain ⟨b, -, rfl⟩ := mem_map.mp hx
    simpa using h.symm
  rw [bytesOf, filter_append, hm, append_nil, bytesOf]

variable {log : List (Nat × UInt8)}

theorem bytesOf_eq_nil {id : Nat} (h : ∀ x ∈ log, x.1 ≠ id) : bytesOf id log = [] := by
  rw [bytesOf, filter_eq_nil_iff.mpr, map_nil]
  intro x hx
  simpa using h x hx

/-- What a call that has returned was given: the bytes it took, and they end where the call's
size, a newline or a `^D` says.  A `^D` after some bytes ends the call and is left; a `^D` with
nothing before it is taken and is not among the bytes. -/
structure Delivered (log : List (Nat × UInt8)) (committed : List UInt8) (r : Result)
    (bs : List UInt8) : Prop where
  bytes : bytesOf r.id log = bs ∨ bs = [] ∧ bytesOf r.id log = [C 'D']
  eof : C 'D' ∉ bs
  size : bs.length ≤ r.size
  line : newline ∉ bs.dropLast
  ended : bs.length = r.size ∨ bs.getLast? = some newline ∨
    bs ≠ [] ∧ committed[r.stop]? = some (C 'D') ∨ bs = [] ∧ bytesOf r.id log = [C 'D']

/-- More input, and bytes taken by other calls, change nothing for a call that has returned. -/
theorem Delivered.mono {log' : List (Nat × UInt8)} {committed committed' : List UInt8} {r : Result}
    {bs : List UInt8} (h : Delivered log committed r bs)
    (hlog : bytesOf r.id log' = bytesOf r.id log) (hc : committed <+: committed') :
    Delivered log' committed' r bs := by
  refine ⟨hlog ▸ h.bytes, h.eof, h.size, h.line, ?_⟩
  rw [hlog]
  refine h.ended.imp_right (Or.imp_right (Or.imp_left fun hd => ⟨hd.1, ?_⟩))
  obtain ⟨x, rfl⟩ := hc
  rw [List.getElem?_append_left (List.getElem?_eq_some_iff.mp hd.2).1]
  exact hd.2

/-- A call in progress. -/
structure Underway (log : List (Nat × UInt8)) (c : Call) : Prop where
  bytes : bytesOf c.id log = c.got
  size : c.left + c.got.length = c.size
  eof : C 'D' ∉ c.got
  line : newline ∉ c.got

variable {c : Call}

theorem Underway.done {m rest committed : List UInt8} {bs : List UInt8} (h : Underway log c)
    (ho : Line.Outcome c.left c.got m rest (.done bs))
    (hrest : committed[log.length + m.length]? = rest.head?) :
    Delivered (log ++ m.map (Prod.mk c.id)) committed
      ⟨c.id, c.size, log.length + m.length, some bs⟩ bs := by
  have hbytes := bytesOf_append_self c.id log m
  rw [h.bytes] at hbytes
  have hsize := h.size
  cases ho with
  | eof hn hgot hm =>
    rw [hgot, hm, nil_append] at hbytes
    rw [hm]
    exact ⟨.inr ⟨rfl, hbytes⟩, not_mem_nil, Nat.zero_le _, not_mem_nil,
      .inr (.inr (.inr ⟨rfl, hbytes⟩))⟩
  | done hlen heof hline hend =>
    refine ⟨.inl hbytes, ?_, ?_, ?_, ?_⟩
    · rw [mem_append]
      exact not_or.mpr ⟨h.eof, heof⟩
    · rw [length_append]
      change c.got.length + m.length ≤ c.size
      omega
    · rcases eq_nil_or_concat m with rfl | ⟨m', b, rfl⟩
      · rw [append_nil]
        exact fun hc => h.line (mem_of_mem_dropLast hc)
      · rw [concat_eq_append, dropLast_concat] at hline
        rw [concat_eq_append, ← append_assoc, dropLast_concat, mem_append]
        exact not_or.mpr ⟨h.line, hline⟩
    · rcases hend with hend | hend | hend
      · refine .inl ?_
        rw [length_append]
        change c.got.length + m.length = c.size
        omega
      · refine .inr (.inl ?_)
        rw [List.getLast?_append, hend]
        rfl
      · exact .inr (.inr (.inl ⟨hend.1, hrest.trans hend.2⟩))

theorem Underway.wait {m rest got : List UInt8} {left : Nat} (h : Underway log c)
    (ho : Line.Outcome c.left c.got m rest (.wait left got)) :
    Underway (log ++ m.map (Prod.mk c.id)) ⟨c.id, c.size, left, got⟩ := by
  have hsize := h.size
  cases ho with
  | wait _ hleft hlen heof hline =>
    refine ⟨?_, ?_, ?_, ?_⟩
    · rw [bytesOf_append_self, h.bytes]
    · rw [length_append]
      change left + (c.got.length + m.length) = c.size
      omega
    · rw [mem_append]
      exact not_or.mpr ⟨h.eof, heof⟩
    · rw [mem_append]
      exact not_or.mpr ⟨h.line, hline⟩

/-! ## The history agrees with the lists -/

section History

variable {P : Type}

/-- The history of the calls, against the lists. -/
structure Kept (l : Line) (h : Host P) : Prop where
  log : h.log.map Prod.snd = l.taken
  logId : ∀ x ∈ h.log, x.1 < h.calls
  callId : ∀ {p c}, (h.reader p).call = some c → c.id < h.calls
  resultId : ∀ r ∈ h.results, r.id < h.calls
  distinct : ∀ {p q c d}, (h.reader p).call = some c → (h.reader q).call = some d →
    c.id = d.id → p = q
  fresh : ∀ {p c}, (h.reader p).call = some c → ∀ r ∈ h.results, r.id ≠ c.id
  calls : ∀ {p c}, (h.reader p).call = some c → Underway h.log c
  results : ∀ r ∈ h.results, ∀ bs, r.value = some bs → Delivered h.log l.committed r bs

variable {l l' : Line} {h h' : Host P} {p : P}

/-- Input is only added to what is committed. -/
theorem Kept.grow (hk : Kept l h) (ht : l'.taken = l.taken) (hp : l.pending <+: l'.pending) :
    Kept l' h := by
  refine ⟨hk.log.trans ht.symm, hk.logId, hk.callId, hk.resultId, hk.distinct, hk.fresh, hk.calls,
    fun r hr bs hbs => (hk.results r hr bs hbs).mono rfl ?_⟩
  rw [Line.committed, Line.committed, ht]
  exact (prefix_append_right_inj _).mpr hp

theorem Kept.same_calls (hk : Kept l h) (hr : ∀ p, (h'.reader p).call = (h.reader p).call)
    (hc : h'.calls = h.calls) (hl : h'.log = h.log) (hs : h'.results = h.results) :
    Kept l h' where
  log := hl ▸ hk.log
  logId := by rw [hl, hc]; exact hk.logId
  callId hp := by rw [hc]; exact hk.callId ((hr _).symm.trans hp)
  resultId := by rw [hs, hc]; exact hk.resultId
  distinct hp hq := hk.distinct ((hr _).symm.trans hp) ((hr _).symm.trans hq)
  fresh hp := by rw [hs]; exact hk.fresh ((hr _).symm.trans hp)
  calls hp := by rw [hl]; exact hk.calls ((hr _).symm.trans hp)
  results := by rw [hs, hl]; exact hk.results

theorem Kept.enter (hk : Kept l h) : Kept l h.enter :=
  ⟨hk.log, fun x hx => Nat.lt_succ_of_lt (hk.logId x hx), fun hp => Nat.lt_succ_of_lt (hk.callId hp),
    fun r hr => Nat.lt_succ_of_lt (hk.resultId r hr), hk.distinct, hk.fresh, hk.calls, hk.results⟩

/-- The call `c` is the one `p` is in, or a new one. -/
structure Turn (h : Host P) (p : P) (c : Call) : Prop where
  id : c.id < h.calls
  underway : Underway h.log c
  distinct : ∀ {q d}, q ≠ p → (h.reader q).call = some d → d.id ≠ c.id
  fresh : ∀ r ∈ h.results, r.id ≠ c.id

theorem Kept.turn_of_call (hk : Kept l h) (hp : (h.reader p).call = some c) : Turn h p c :=
  ⟨hk.callId hp, hk.calls hp, fun hq hd he => hq (hk.distinct hd hp he), hk.fresh hp⟩

theorem Kept.turn_of_enter (hk : Kept l h) (p : P) (n : Int) : Turn h.enter p (h.newCall n) where
  id := Nat.lt_succ_self _
  underway := by
    refine ⟨bytesOf_eq_nil fun x hx => Nat.ne_of_lt (hk.logId x hx), Nat.add_zero _,
      not_mem_nil, not_mem_nil⟩
  distinct _ hd := Nat.ne_of_lt (hk.callId hd)
  fresh r hr := Nat.ne_of_lt (hk.resultId r hr)

variable [DecidableEq P]

/-- A turn keeps the history, if the call's own part of it is right: it goes on, or it has
returned. -/
theorem Kept.after {m : List UInt8} (hk : Kept l h) (hturn : Turn h p c)
    (ht : l'.taken = l.taken ++ m) (hc : l'.committed = l.committed)
    (hreader : ∀ q, q ≠ p → h'.reader q = h.reader q) (hcalls : h'.calls = h.calls)
    (hlog : h'.log = h.log ++ m.map (Prod.mk c.id)) (hp : ((h'.reader p).call = none ∧
        ∃ r : Result, r.id = c.id ∧ h'.results = h.results ++ [r] ∧
          ∀ bs, r.value = some bs → Delivered h'.log l'.committed r bs) ∨
      (h'.results = h.results ∧
        ∃ d : Call, d.id = c.id ∧ (h'.reader p).call = some d ∧ Underway h'.log d)) :
    Kept l' h' := by
  have hother : ∀ {q d}, q ≠ p → (h'.reader q).call = some d →
      (h.reader q).call = some d := fun hq hd => hreader _ hq ▸ hd
  have hself : ∀ {d}, (h'.reader p).call = some d →
      d.id = c.id ∧ h'.results = h.results ∧ Underway h'.log d := by
    intro d hd
    rcases hp with ⟨hnone, -⟩ | ⟨hres, e, he, hpe, hund⟩
    · rw [hnone] at hd
      cases hd
    · rw [hpe] at hd
      cases hd
      exact ⟨he, hres, hund⟩
  have hold : ∀ r ∈ h.results, ∀ bs, r.value = some bs → Delivered h'.log l'.committed r bs := by
    intro r hr bs hbs
    refine (hk.results r hr bs hbs).mono ?_ (by rw [hc])
    rw [hlog, bytesOf_append_of_ne (hturn.fresh r hr)]
  refine ⟨?_, ?_, ?_, ?_, ?_, ?_, ?_, ?_⟩
  · rw [hlog, map_append, hk.log, ht, map_map]
    exact congrArg _ (map_id m)
  · intro x hx
    rw [hlog, mem_append] at hx
    rw [hcalls]
    rcases hx with hx | hx
    · exact hk.logId x hx
    · obtain ⟨b, -, rfl⟩ := mem_map.mp hx
      exact hturn.id
  · intro q d hd
    rw [hcalls]
    by_cases hq : q = p
    · subst hq
      exact (hself hd).1 ▸ hturn.id
    · exact hk.callId (hother hq hd)
  · intro r hr
    rw [hcalls]
    rcases hp with ⟨-, r', hid, hres, -⟩ | ⟨hres, -⟩
    · rw [hres, mem_append, mem_singleton] at hr
      rcases hr with hr | rfl
      · exact hk.resultId r hr
      · exact hid ▸ hturn.id
    · exact hk.resultId r (hres ▸ hr)
  · intro q q' d d' hd hd' he
    by_cases hq : q = p
    · subst hq
      by_cases hq' : q' = q
      · exact hq'.symm
      · exact absurd (he.symm.trans (hself hd).1) (hturn.distinct hq' (hother hq' hd'))
    · by_cases hq' : q' = p
      · subst hq'
        exact absurd (he.trans (hself hd').1) (hturn.distinct hq (hother hq hd))
      · exact hk.distinct (hother hq hd) (hother hq' hd') he
  · intro q d hd r hr
    by_cases hq : q = p
    · subst hq
      obtain ⟨hid, hres, -⟩ := hself hd
      exact hid ▸ hturn.fresh r (hres ▸ hr)
    · rcases hp with ⟨-, r', hid, hres, -⟩ | ⟨hres, -⟩
      · rw [hres, mem_append, mem_singleton] at hr
        rcases hr with hr | rfl
        · exact hk.fresh (hother hq hd) r hr
        · rw [hid]
          exact (hturn.distinct hq (hother hq hd)).symm
      · exact hk.fresh (hother hq hd) r (hres ▸ hr)
  · intro q d hd
    by_cases hq : q = p
    · subst hq
      exact (hself hd).2.2
    · have hund := hk.calls (hother hq hd)
      refine ⟨?_, hund.size, hund.eof, hund.line⟩
      rw [hlog, bytesOf_append_of_ne (hturn.distinct hq (hother hq hd)), hund.bytes]
  · intro r hr
    rcases hp with ⟨-, r', hid, hres, hdel⟩ | ⟨hres, -⟩
    · rw [hres, mem_append, mem_singleton] at hr
      rcases hr with hr | rfl
      · exact hold r hr
      · exact hdel
    · exact hold r (hres ▸ hr)

/-- **A turn of a reader keeps the history.** -/
theorem Kept.turn (hk : Kept l h) (hturn : Turn h p c) :
    Kept (tty.turn ⟨l, h⟩ p c).dev (tty.turn ⟨l, h⟩ p c).host := by
  obtain ⟨m, hp, ht, -, ho⟩ := l.copyOut_outcome c.left c.got
  have hm : (l.read c.left c.got).2.2 = m := by rw [Line.read, ht, drop_left]
  have hcom : (l.copyOut c.left c.got).2.committed = l.committed := by
    rw [Line.committed, Line.committed, ht, hp, append_assoc]
  have hrest : (l.copyOut c.left c.got).2.committed[h.log.length + m.length]? =
      (l.copyOut c.left c.got).2.pending.head? := by
    have hlen : h.log.length + m.length = (l.copyOut c.left c.got).2.taken.length := by
      rw [ht, length_append, ← hk.log, length_map]
    rw [hlen, Line.committed, List.getElem?_append_right (Nat.le_refl _), Nat.sub_self,
      List.head?_eq_getElem?]
  change Kept (l.copyOut c.left c.got).2
    (h.turn p c (l.read c.left c.got).2.2 (l.copyOut c.left c.got).1)
  rw [hm]
  generalize (l.copyOut c.left c.got).1 = o at ho
  have hother : ∀ {r : Reader} {q : P}, q ≠ p → Function.update h.reader p r q = h.reader q :=
    fun hq => Function.update_of_ne hq _ _
  cases o with
  | done bs =>
    refine hk.after hturn ht hcom (fun q hq => hother hq) rfl rfl (.inl ⟨?_, _, rfl, rfl, ?_⟩)
    · simp [Host.turn, Host.finish, Reader.call]
    · intro bs' hbs
      cases hbs
      exact hturn.underway.done ho hrest
  | wait left got =>
    rw [Host.turn]
    split
    · refine hk.after hturn ht hcom (fun q hq => hother hq) rfl rfl (.inl ⟨?_, _, rfl, rfl, ?_⟩)
      · simp [Host.finish, Reader.call]
      · intro bs' hbs
        cases hbs
    · refine hk.after hturn ht hcom (fun q hq => hother hq) rfl rfl
        (.inr ⟨rfl, ⟨c.id, c.size, left, got⟩, rfl, ?_, hturn.underway.wait ho⟩)
      simp [Host.sleep, Reader.call]

end History

/-- A character takes nothing, and adds to the pending bytes. -/
theorem Line.key_grow (l : Line) (c : UInt8) :
    (l.key c).1.taken = l.taken ∧ l.pending <+: (l.key c).1.pending := by
  rw [Line.key]
  split
  · exact ⟨rfl, prefix_refl _⟩
  · split
    · exact ⟨rfl, prefix_refl _⟩
    · split
      · exact ⟨rfl, prefix_refl _⟩
      · rw [Line.insert]
        split
        · split
          · exact ⟨rfl, prefix_append _ _⟩
          · exact ⟨rfl, prefix_refl _⟩
        · exact ⟨rfl, prefix_refl _⟩

theorem intr_grow : ∀ (cs : List UInt8) (l : Line),
    (tty.intr cs l).1.taken = l.taken ∧ l.pending <+: (tty.intr cs l).1.pending
  | [], l => ⟨rfl, List.prefix_refl _⟩
  | c :: cs, l => by
    obtain ⟨h₁, h₂⟩ := l.key_grow c
    obtain ⟨h₃, h₄⟩ := intr_grow cs (l.key c).1
    exact ⟨h₃.trans h₁, h₂.trans h₄⟩

section Runs

variable {P : Type} [DecidableEq P] {es : List (Event P)}

theorem Host.call_kill (h : Host P) (p q : P) : ((h.kill p).reader q).call = (h.reader q).call := by
  by_cases hq : q = p
  · subst hq
    simp [Host.kill]
  · simp [Host.kill, hq]

/-- **The history agrees with the lists in every run.** -/
theorem kept_of_run {t : State Line P} (h : Runs tty Line.empty es t) : Kept t.dev t.host := by
  refine h.invariant (I := fun _ t => Kept t.dev t.host) ?_ ?_
  · exact ⟨rfl, by simp [Host.init], by simp [Host.init, Reader.call], by simp [Host.init],
      by simp [Host.init, Reader.call], by simp [Host.init], by simp [Host.init, Reader.call],
      by simp [Host.init]⟩
  · intro es t e t' hk hs
    cases stepped_of_step tty hs with
    | intr cs =>
      obtain ⟨h₁, h₂⟩ := intr_grow cs t.dev
      have hg := hk.grow h₁ h₂
      split
      · exact hg.same_calls (fun p => Reader.call_wake _) rfl rfl rfl
      · exact hg
    | read p n hp => exact hk.enter.turn (hk.turn_of_enter p n)
    | resume p c hc => exact hk.turn (hk.turn_of_call (by rw [hc]; rfl))
    | kill p => exact hk.same_calls (t.host.call_kill p) rfl rfl rfl

end Runs

end Xv6.Console
