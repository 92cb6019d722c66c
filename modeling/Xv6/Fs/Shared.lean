/-
# `Xv6.Fs.Shared` — writes through one open file

Any number of processes call `filewrite` on one `struct file` of a regular file, as
after `fork` or `dup`.  Each call writes its buffer in chunks, and other calls come in
between.  The chunk, the offset it is written at and the new offset all belong to one
section under the inode's lock, so the chunks lie one after the other in the order in
which the lock was taken.

The programs are the ones of `Xv6.Fs.Syscall`, interleaved command by command.  They
follow the protocol `writers`, whose ghost state says where in the section a process is
and what its calls have written; `Sharing` is the invariant, on the table of inodes, and
`Xv6.Fs.Refine` takes it to the blocks.
-/
import Xv6.Fs.Refine
import Xv6.Fs.Syscall
import Mathlib.Algebra.BigOperators.Group.Finset.Piecewise
import Mathlib.Algebra.Order.BigOperators.Group.Finset

namespace Xv6.Fs

open Machine Bytes List
open Function (update forall_update_iff update_eq_self update_of_ne update_self)

/-! ## Calls and what they have written -/

/-- A call of `filewrite`: its buffer and the chunks of it that are in the file. -/
structure Writing where
  src : List UInt8
  chunks : List (List UInt8)
  /-- A `writei` has returned -1. -/
  failed : Bool
  text : chunks.flatten <+: src
  size : ∀ c ∈ chunks, c ≠ [] ∧ c.length ≤ WRITEMAX

namespace Writing

def start (src : List UInt8) : Writing := ⟨src, [], false, List.nil_prefix, nofun⟩

/-- What is still to be written. -/
def rest (w : Writing) : List UInt8 := w.src.drop w.chunks.flatten.length

theorem append_rest (w : Writing) : w.chunks.flatten ++ w.rest = w.src :=
  prefix_iff_eq_append.mp w.text

/-- The next chunk is written. -/
def add (w : Writing) (h : w.rest ≠ []) : Writing where
  src := w.src
  chunks := w.chunks ++ [w.rest.take WRITEMAX]
  failed := w.failed
  text := by
    have := w.append_rest
    rw [List.flatten_append, List.flatten_singleton]
    refine ⟨w.rest.drop WRITEMAX, ?_⟩
    rw [List.append_assoc, List.take_append_drop, this]
  size c hc := by
    rcases List.mem_append.mp hc with hc | hc
    · exact w.size c hc
    · rw [List.mem_singleton.mp hc]
      refine ⟨fun he => ?_, List.length_take_le _ _⟩
      rcases List.take_eq_nil_iff.mp he with h₀ | h₀
      · exact absurd h₀ (by decide)
      · exact h h₀

end Writing

/-- Where a process is: before `ilock` or after `iunlock`; with the lock; with the inode read;
with the offset read; with the chunk written and the offset not; with the offset written. -/
inductive Stage
  | out
  | locked
  | loaded
  | at (off : Nat)
  | moved (off : Nat)
  | finished
  deriving DecidableEq

/-- The buffers of calls to come, the calls that are over, the one that runs or was the last. -/
structure Writer where
  plan : List (List UInt8)
  past : List Writing
  cur : Option Writing
  stage : Stage

namespace Writer

def goto (l : Writer) (s : Stage) : Writer := ⟨l.plan, l.past, l.cur, s⟩

def calls (l : Writer) : List Writing := l.past ++ l.cur.toList

def next (l : Writer) (src : List UInt8) (plan : List (List UInt8)) : Writer :=
  ⟨plan, l.calls, some (.start src), .out⟩

/-- The call that runs is now `w`. -/
def setCur (l : Writer) (w : Writing) (s : Stage) : Writer := ⟨l.plan, l.past, some w, s⟩

end Writer

section

variable (f : FileId) (ip : InodeId)

/-- What a writer may ask for. -/
def mayAsk : Cmd → Writer → Prop
  | .file g, l => g = f ∧ (l.stage = .out ∧ l.plan ≠ [] ∨ l.stage = .loaded)
  | .ref i, _ => i = ip
  | .acquiresleep i _, l => i = ip ∧ l.stage = .out
  | .load i, l => i = ip ∧ l.stage = .locked
  | .writei i off src, l =>
    i = ip ∧ l.stage = .at off ∧
      ∃ w, l.cur = some w ∧ w.rest ≠ [] ∧ src = w.rest.take WRITEMAX
  | .setOff g off, l => g = f ∧ l.stage = .moved off
  | .holdingsleep i, l => i = ip ∧ l.stage = .finished
  | .releasesleep i, l => i = ip ∧ l.stage = .finished
  | _, _ => False

end

section

variable {f : FileId} {ip : InodeId} {l : Writer}

end

/-! ## The invariant -/

/-- The bytes of a sequence of chunks. -/
def text {T : Type} (log : List (T × List UInt8)) : List UInt8 := log.flatMap Prod.snd

/-- `f` is open for writing on the regular file `x`, which is cached in `ip`. -/
structure OpenOn {T : Type} (f : FileId) (ip : InodeId) (x : Nat) (k : Kernel T) (d : Table) :
    Prop where
  type : (k.file f).type = .inode
  writable : (k.file f).writable = true
  inode : (k.file f).ip = ip
  ref : 0 < (k.inode ip).ref
  inum : (k.inode ip).inum = x
  regular : (d x).type = T_FILE

section

variable {T : Type} (n : Nat) (f : FileId) (ip : InodeId) (x : Nat) (old : List UInt8) (off₀ : Nat)
  (bufs : T → List (List UInt8))

/-- The chunks written so far, in the order of the lock: they are in the file one after the
other, from the first offset on, and the offset is behind them unless somebody is about to
move it there. -/
structure Logged [DecidableEq T] (log : List (T × List UInt8)) (a : State T Table)
    (G : T → Writer) : Prop where
  content : (a.d x).content = overwrite old off₀ (text log)
  room : log ≠ [] → off₀ ≤ old.length
  moved : ∀ t o, (G t).stage = .moved o → o = off₀ + (text log).length
  still : (∀ t o, (G t).stage ≠ .moved o) → (a.k.file f).off = off₀ + (text log).length
  own : ∀ t, (log.filter fun e => e.1 = t).map Prod.snd = (G t).calls.flatMap Writing.chunks

/-- **The invariant of the writers.** -/
structure Sharing [DecidableEq T] (a : State T Table) (G : T → Writer) : Prop where
  tidy : Tidy n a.k a.d
  opened : OpenOn f ip x a.k a.d
  lock : ∀ t, (G t).stage ≠ .out → (a.k.inode ip).lock = some t
  valid : ∀ t, (G t).stage ≠ .out → (G t).stage ≠ .locked → (a.k.inode ip).valid = true
  pos : ∀ t o, (G t).stage = .at o → (a.k.file f).off = o
  plan : ∀ t, (G t).calls.map Writing.src ++ (G t).plan = bufs t
  log : ∃ log, Logged f x old off₀ log a G

end

variable {o : Nat} {w : Writing}

section

variable {T : Type} [DecidableEq T] {n : Nat} {f : FileId} {ip : InodeId} {x : Nat}
  {old : List UInt8} {off₀ : Nat} {bufs : T → List (List UInt8)} {a a' : State T Table}
  {G : T → Writer} {t : T} {k : Kernel T} {d : Table}

omit [DecidableEq T] in
/-- What an entry is for has not changed, nor whether it is in use. -/
theorem Tidy.of_frame {k' : Kernel T} (h : Tidy n k d)
    (hk : ∀ i, (k'.inode i).ref = (k.inode i).ref ∧ (k'.inode i).inum = (k.inode i).inum)
    (halive : ∀ i, 0 < (k.inode i).ref → (k'.inode i).valid = true →
      (k'.inode i).toAttr = (d (k.inode i).inum).toAttr ∧ (d (k.inode i).inum).toAttr.type ≠ 0)
    (hcwd : k'.cwd = k.cwd) : Tidy n k' d where
  uniq i j hi hj he := by
    rw [(hk _).1] at hi hj
    rw [(hk _).2, (hk _).2] at he
    exact h.uniq i j hi hj he
  range i hi := by
    rw [(hk i).2]
    exact h.range i ((hk i).1 ▸ hi)
  alive i hi hv := by
    rw [(hk i).2]
    exact halive i ((hk i).1 ▸ hi) hv
  cwd p i hp := by
    rw [hcwd] at hp
    rw [(hk i).1]
    exact h.cwd p i hp

omit [DecidableEq T] in
/-- Only locks have changed, or an entry has become invalid. -/
theorem Tidy.of_same {k' : Kernel T} (h : Tidy n k d)
    (hk : ∀ i, (k'.inode i).ref = (k.inode i).ref ∧ (k'.inode i).inum = (k.inode i).inum ∧
      ((k'.inode i).valid = true → (k.inode i).valid = true ∧
        (k'.inode i).toAttr = (k.inode i).toAttr)) (hcwd : k'.cwd = k.cwd) : Tidy n k' d := by
  refine h.of_frame (fun i => ⟨(hk i).1, (hk i).2.1⟩) (fun i hi hv => ?_) hcwd
  obtain ⟨hv', ha⟩ := (hk i).2.2 hv
  rw [ha]
  exact h.alive i hi hv'

omit [DecidableEq T] in
theorem Tidy.setLock (h : Tidy n k d) (i : InodeId) (l : Option T) :
    Tidy n (k.modify i fun ip => { ip with lock := l }) d := by
  refine h.of_same (fun j => ?_) rfl
  rw [Kernel.modify_inode]
  split
  · rename_i hj
    rw [hj]
    exact ⟨rfl, rfl, fun hv => ⟨hv, rfl⟩⟩
  · exact ⟨rfl, rfl, fun hv => ⟨hv, rfl⟩⟩

omit [DecidableEq T] in
theorem Tidy.load (h : Tidy n k d) {i : InodeId} (htype : (d (k.inode i).inum).type ≠ 0) :
    Tidy n (k.modify i fun ip => { ip with toAttr := (d (k.inode i).inum).toAttr, valid := true })
      d := by
  refine h.of_frame (fun j => ?_) (fun j hj hv => ?_) rfl
  · rw [Kernel.modify_inode]
    split
    · rename_i hj
      rw [hj]
      exact ⟨rfl, rfl⟩
    · exact ⟨rfl, rfl⟩
  · rw [Kernel.modify_inode] at hv ⊢
    split at hv
    · rename_i hji
      rw [if_pos hji, hji]
      exact ⟨rfl, htype⟩
    · rename_i hji
      rw [if_neg hji]
      exact h.alive j hj hv

section

variable (h : Sharing n f ip x old off₀ bufs a G)
include h

/-- One process is in the section. -/
theorem Sharing.only (ht : (G t).stage ≠ .out) {u : T}
    (hu : u ≠ t) : (G u).stage = .out := by
  by_contra hc
  have h₁ := h.lock t ht
  rw [h.lock u hc] at h₁
  exact hu (Option.some.inj h₁)

/-- Process `t` is now `l`, with the chunks `log'`, and nobody else is in the section. -/
theorem Sharing.change {l : Writer}
    (hout : ∀ u, u ≠ t → (G u).stage = .out) (htidy : Tidy n a'.k a'.d)
    (hopen : OpenOn f ip x a'.k a'.d) (hlock : l.stage ≠ .out → (a'.k.inode ip).lock = some t)
    (hvalid : l.stage ≠ .out → l.stage ≠ .locked → (a'.k.inode ip).valid = true)
    (hpos : ∀ o, l.stage = .at o → (a'.k.file f).off = o)
    (hplan : l.calls.map Writing.src ++ l.plan = bufs t) {log : List (T × List UInt8)}
    (hlog : Logged f x old off₀ log a G) (log' : List (T × List UInt8))
    (hcontent : (a'.d x).content = overwrite old off₀ (text log'))
    (hroom : log' ≠ [] → off₀ ≤ old.length)
    (hmoved : ∀ o, l.stage = .moved o → o = off₀ + (text log').length)
    (hstill : (∀ o, l.stage ≠ .moved o) → (a'.k.file f).off = off₀ + (text log').length)
    (hown : (log'.filter fun e => e.1 = t).map Prod.snd = l.calls.flatMap Writing.chunks)
    (hothers : ∀ u, u ≠ t → log'.filter (fun e => e.1 = u) = log.filter fun e => e.1 = u) :
    Sharing n f ip x old off₀ bufs a' (update G t l) where
  tidy := htidy
  opened := hopen
  lock := (forall_update_iff G fun u w => w.stage ≠ .out → _ = some u).mpr
    ⟨hlock, fun u hu hs => absurd (hout u hu) hs⟩
  valid := (forall_update_iff G fun _ w => w.stage ≠ .out → w.stage ≠ .locked → _).mpr
    ⟨hvalid, fun u hu hs => absurd (hout u hu) hs⟩
  pos := (forall_update_iff G fun _ w => ∀ o, w.stage = .at o → _ = o).mpr
    ⟨hpos, fun u hu o hs => nomatch (hout u hu).symm.trans hs⟩
  plan := (forall_update_iff G fun u w => w.calls.map Writing.src ++ w.plan = bufs u).mpr
    ⟨hplan, fun u _ => h.plan u⟩
  log := ⟨log', hcontent, hroom,
    (forall_update_iff G fun _ w => ∀ o, w.stage = .moved o → o = _).mpr
      ⟨hmoved, fun u hu o hs => nomatch (hout u hu).symm.trans hs⟩,
    fun hno => hstill fun o => update_self t l G ▸ hno t o,
    (forall_update_iff G fun u w => _ = w.calls.flatMap Writing.chunks).mpr
      ⟨hown, fun u hu => by rw [hothers u hu]; exact hlog.own u⟩⟩

/-- A process moves on in the section, without a change to the file or to what it has written. -/
theorem Sharing.advance {l : Writer}
    (hout : ∀ u, u ≠ t → (G u).stage = .out)
    (hsrc : l.calls.map Writing.src = (G t).calls.map Writing.src)
    (hchunks : l.calls.flatMap Writing.chunks = (G t).calls.flatMap Writing.chunks)
    (hplan : l.plan = (G t).plan) (hold : ∀ o, (G t).stage ≠ .moved o)
    (hnew : ∀ o, l.stage ≠ .moved o) (hd : a'.d = a.d) (hfile : a'.k.file = a.k.file)
    (htidy : Tidy n a'.k a'.d) (href : (a'.k.inode ip).ref = (a.k.inode ip).ref)
    (hinum : (a'.k.inode ip).inum = (a.k.inode ip).inum)
    (hlock : l.stage ≠ .out → (a'.k.inode ip).lock = some t)
    (hvalid : l.stage ≠ .out → l.stage ≠ .locked → (a'.k.inode ip).valid = true)
    (hpos : ∀ o, l.stage = .at o → (a'.k.file f).off = o) :
    Sharing n f ip x old off₀ bufs a' (update G t l) := by
  obtain ⟨log, hlog⟩ := h.log
  refine h.change hout htidy ⟨?_, ?_, ?_, ?_, ?_, ?_⟩ hlock hvalid hpos (by rw [hsrc, hplan, h.plan])
    hlog log (by rw [hd]; exact hlog.content) hlog.room (fun o ho => absurd ho (hnew o)) (fun _ => ?_)
    (by rw [hchunks, hlog.own]) fun _ _ => rfl
  · rw [hfile]; exact h.opened.type
  · rw [hfile]; exact h.opened.writable
  · rw [hfile]; exact h.opened.inode
  · rw [href]; exact h.opened.ref
  · rw [hinum]; exact h.opened.inum
  · rw [hd]; exact h.opened.regular
  · rw [hfile]
    refine hlog.still fun u o hu => ?_
    by_cases he : u = t
    · exact hold o (he ▸ hu)
    · exact nomatch (hout u he).symm.trans hu

/-- Before a chunk is written, the offset is behind the others. -/
theorem Sharing.pos_eq {log : List (T × List UInt8)}
    (hlog : Logged f x old off₀ log a G) (hs : (G t).stage = .at o) :
    o = off₀ + (text log).length := by
  rw [← h.pos t o hs]
  refine hlog.still fun u p hu => ?_
  by_cases he : u = t
  · subst he
    exact nomatch hs.symm.trans hu
  · exact nomatch (h.only (by rw [hs]; nofun) he).symm.trans hu

end

omit [DecidableEq T] in
theorem text_append (log : List (T × List UInt8)) (t : T) (c : List UInt8) :
    text (log ++ [(t, c)]) = text log ++ c := by
  rw [text, flatMap_append, text]
  simp

theorem Sharing.next (h : Sharing n f ip x old off₀ bufs a G) (hs : (G t).stage = .out)
    {src : List UInt8} {plan : List (List UInt8)} (hp : (G t).plan = src :: plan) :
    Sharing n f ip x old off₀ bufs a (update G t ((G t).next src plan)) := by
  have hcalls : ((G t).next src plan).calls = (G t).calls ++ [.start src] := rfl
  have hstage : ∀ u, (update G t ((G t).next src plan) u).stage = (G u).stage := by
    intro u
    by_cases hu : u = t
    · subst hu
      rw [update_self, hs]
      rfl
    · rw [update_of_ne hu]
  obtain ⟨log, hlog⟩ := h.log
  refine ⟨h.tidy, h.opened, fun u => ?_, fun u => ?_, fun u => ?_, fun u => ?_, log, hlog.content,
    hlog.room, fun u => ?_, fun hno => hlog.still fun u o => ?_, fun u => ?_⟩
  · rw [hstage]; exact h.lock u
  · rw [hstage]; exact h.valid u
  · rw [hstage]; exact h.pos u
  · by_cases hu : u = t
    · subst hu
      rw [update_self, hcalls, map_append, append_assoc]
      change _ ++ src :: plan = _
      rw [← hp]
      exact h.plan u
    · rw [update_of_ne hu]
      exact h.plan u
  · rw [hstage]; exact hlog.moved u
  · rw [← hstage]; exact hno u o
  · by_cases hu : u = t
    · subst hu
      rw [update_self, hcalls, flatMap_append, hlog.own u]
      simp [Writing.start]
    · rw [update_of_ne hu]
      exact hlog.own u

theorem Sharing.setOff (h : Sharing n f ip x old off₀ bufs a G) (hs : (G t).stage = .moved o) :
    Sharing n f ip x old off₀ bufs
      ⟨a.k.modifyFile f fun fl => { fl with off := o }, a.d⟩
      (update G t ((G t).goto .finished)) := by
  have ht : (G t).stage ≠ .out := by rw [hs]; nofun
  have hfile : ((a.k.modifyFile f fun fl => { fl with off := o }).file f) =
      { a.k.file f with off := o } := update_self ..
  obtain ⟨log, hlog⟩ := h.log
  refine h.change (fun u hu => h.only ht hu)
    (h.tidy.of_same (fun i => ⟨rfl, rfl, fun hv => ⟨hv, rfl⟩⟩) rfl)
    ⟨?_, ?_, ?_, h.opened.ref, h.opened.inum, h.opened.regular⟩ (fun _ => h.lock t ht)
    (fun _ _ => h.valid t ht (by rw [hs]; nofun)) nofun (h.plan t) hlog log
    hlog.content hlog.room nofun (fun _ => ?_) (hlog.own t) fun _ _ => rfl
  · rw [hfile]; exact h.opened.type
  · rw [hfile]; exact h.opened.writable
  · rw [hfile]; exact h.opened.inode
  · rw [hfile]
    exact hlog.moved t o hs

theorem Writer.calls_setCur {l : Writer} (hw : l.cur = some w) (w' : Writing) (s : Stage) :
    l.calls = l.past ++ [w] ∧ (l.setCur w' s).calls = l.past ++ [w'] := by
  refine ⟨?_, rfl⟩
  rw [Writer.calls, hw]
  rfl

theorem Sharing.wrote (h : Sharing n f ip x old off₀ bufs a G) (hs : (G t).stage = .at o)
    (hw : (G t).cur = some w) (hne : w.rest ≠ []) {node : Node}
    (hattr : node.toAttr = (a.d x).toAttr) (hcan : o ≤ (a.d x).content.length)
    (hnode : node.content = overwrite (a.d x).content o (w.rest.take WRITEMAX)) :
    Sharing n f ip x old off₀ bufs ⟨a.k, update a.d x node⟩
      (update G t ((G t).setCur (w.add hne)
        (.moved (o + (w.rest.take WRITEMAX).length)))) := by
  have ht : (G t).stage ≠ .out := by rw [hs]; nofun
  obtain ⟨hc, hc'⟩ := Writer.calls_setCur hw (w.add hne) (.moved (o + (w.rest.take WRITEMAX).length))
  obtain ⟨log, hlog⟩ := h.log
  have hpos := h.pos_eq hlog hs
  have hroom : off₀ ≤ old.length := by
    rcases log with - | ⟨e, log⟩
    · rw [hlog.content, show text ([] : List (T × List UInt8)) = [] from rfl, overwrite_nil] at hcan
      rw [hpos] at hcan
      exact Nat.le_of_add_right_le hcan
    · exact hlog.room nofun
  refine h.change (fun u hu => h.only ht hu)
    ⟨h.tidy.uniq, h.tidy.range, fun i hi hv => ?_, h.tidy.cwd⟩
    ⟨h.opened.type, h.opened.writable, h.opened.inode, h.opened.ref, h.opened.inum, ?_⟩
    (fun _ => h.lock t ht) (fun _ _ => h.valid t ht (by rw [hs]; nofun)) nofun ?_ hlog
    (log ++ [(t, w.rest.take WRITEMAX)]) ?_ (fun _ => hroom) (fun p hp => ?_) (fun hno => absurd rfl (hno _)) ?_ fun u hu => ?_
  · obtain ⟨h₁, h₂⟩ := h.tidy.alive i hi hv
    dsimp only
    by_cases hix : (a.k.inode i).inum = x
    · rw [hix, update_self]
      rw [hix] at h₁ h₂
      exact ⟨h₁.trans hattr.symm, by rw [hattr]; exact h₂⟩
    · rw [update_of_ne hix]
      exact ⟨h₁, h₂⟩
  · dsimp only
    rw [update_self, hattr]
    exact h.opened.regular
  · have hplan := h.plan t
    rw [hc, map_append] at hplan
    rw [hc', map_append]
    exact hplan
  · dsimp only
    rw [update_self, hnode, hlog.content, hpos, text_append]
    exact overwrite_overwrite _ _ hroom
  · cases hp
    rw [text_append, length_append, hpos, Nat.add_assoc]
  · rw [filter_append, map_append, hlog.own, hc', hc, flatMap_append, flatMap_append]
    simp [Writing.add]
  · simp [filter_append, Ne.symm hu]

end

/-! ## The writes fit -/

section

variable {T : Type} [DecidableEq T] [Fintype T] {n : Nat} {f : FileId} {ip : InodeId} {x : Nat}
  {old : List UInt8} {off₀ : Nat} {bufs : T → List (List UInt8)} {a : State T Table}
  {G : T → Writer} {t : T}

/-- The first offset is in the file, and with all that is to be written the file does not get
too large. -/
def Fits (old : List UInt8) (off₀ : Nat) (bufs : T → List (List UInt8)) : Prop :=
  off₀ ≤ old.length ∧ off₀ + ∑ t, (bufs t).flatten.length ≤ MAXFILE * BSIZE

theorem length_text (log : List (T × List UInt8)) : (text log).length =
    ∑ t, (((log.filter fun e => e.1 = t).map Prod.snd).flatten).length := by
  induction log with
  | nil => simp [text]
  | cons e log ih =>
    have hone : ∀ t, ((((e :: log).filter fun e => e.1 = t).map Prod.snd).flatten).length =
        (if t = e.1 then e.2.length else 0) +
          (((log.filter fun e => e.1 = t).map Prod.snd).flatten).length := by
      intro t
      by_cases ht : e.1 = t
      · simp [ht]
      · simp [ht, Ne.symm ht]
    simp only [hone, Finset.sum_add_distrib, Finset.sum_ite_eq', Finset.mem_univ, if_true, ← ih]
    simp [text]

theorem length_chunks_le (ws : List Writing) :
    (ws.flatMap Writing.chunks).flatten.length ≤ (ws.map Writing.src).flatten.length := by
  induction ws with
  | nil => exact Nat.le_refl _
  | cons w ws ih =>
    have := w.text.length_le
    simp only [flatMap_cons, flatten_append, length_append, map_cons, flatten_cons]
    omega

/-- A chunk that is to be written fits. -/
theorem Sharing.canWrite (h : Sharing n f ip x old off₀ bufs a G) (hfits : Fits old off₀ bufs)
    (hs : (G t).stage = .at o) (hw : (G t).cur = some w) :
    canWrite (a.d x).content o (w.rest.take WRITEMAX).length := by
  obtain ⟨hroom, hmax⟩ := hfits
  obtain ⟨log, hlog⟩ := h.log
  have hpos := h.pos_eq hlog hs
  have hle : (text log).length + w.rest.length ≤ ∑ u, (bufs u).flatten.length := by
    calc (text log).length + w.rest.length
        = ∑ u, (((G u).calls.flatMap Writing.chunks).flatten.length +
            if u = t then w.rest.length else 0) := by
          rw [length_text, Finset.sum_add_distrib]
          simp [hlog.own]
      _ ≤ ∑ u, (bufs u).flatten.length := by
          refine Finset.sum_le_sum fun u _ => ?_
          rw [← h.plan u, flatten_append, length_append]
          by_cases hu : u = t
          · subst hu
            obtain ⟨hc, -⟩ := Writer.calls_setCur hw w .out
            have h₁ := length_chunks_le (G u).past
            have h₂ := congrArg List.length w.append_rest
            rw [length_append] at h₂
            rw [if_pos rfl, hc]
            simp only [flatMap_append, flatten_append, length_append,
              map_append, flatMap_cons, flatMap_nil, append_nil,
              map_cons, map_nil, flatten_cons, flatten_nil]
            omega
          · have := length_chunks_le (G u).calls
            rw [if_neg hu]
            omega
  have htake' : (w.rest.take WRITEMAX).length ≤ w.rest.length := length_take_le' ..
  have hlt : MAXFILE * BSIZE < 2 ^ 32 := by decide
  refine ⟨?_, ?_, ?_⟩
  · rw [hlog.content, length_overwrite _ _ _ hroom, hpos]
    exact Nat.le_max_right _ _
  · omega
  · omega

/-- The invariant, with the promise that no write fails if all fit. -/
def Writes (n : Nat) (f : FileId) (ip : InodeId) (x : Nat) (old : List UInt8) (off₀ : Nat)
    (bufs : T → List (List UInt8)) (a : State T Table) (G : T → Writer) : Prop :=
  Sharing n f ip x old off₀ bufs a G ∧
    (Fits old off₀ bufs → ∀ t, ∀ w ∈ (G t).calls, w.failed = false)

/-- What a writer asks for is in order. -/
theorem Writes.allowed (h : Writes n f ip x old off₀ bufs a G) {c : Cmd}
    (hp : mayAsk f ip c (G t)) : Allowed n c a := by
  refine ⟨h.1.tidy, fun i hi => ?_, fun i hi => ?_, fun ty hi => ?_, fun hi => ?_⟩
  · cases c with
    | writei j o src =>
      obtain ⟨rfl, hat, -⟩ := hp
      cases hi
      exact ⟨h.1.opened.ref, h.1.valid t (by rw [hat]; nofun) (by rw [hat]; nofun)⟩
    | _ => first | exact hp.elim | cases hi
  · subst hi
    obtain ⟨rfl, -⟩ := hp
    exact h.1.opened.ref
  · subst hi
    exact hp.elim
  · subst hi
    exact hp.elim

end

/-! ## A small disk -/

/-- The disk of eight blocks, four of them for data, whose inode 1 is an empty file. -/
def smallDisk : Disk := fun b =>
  if b = 1 then
    ((((((Block.setWord Buffer.zero 0 8).setWord 1 4).setWord 2 2).setWord 3 0).setWord 4 2).setWord
      5 2).setWord 6 3
  else if b = 2 then Block.setDinode Buffer.zero 1 ⟨T_FILE, 0, 0, 1, 0, fun _ => 0⟩
  else if b = 3 then (((Block.setBit Buffer.zero 0).setBit 1).setBit 2).setBit 3
  else Buffer.zero

def smallVol : Vol := ⟨⟨8, 4, 2, 0, 2, 2, 3⟩, smallDisk, fun _ => 0, fun _ _ => 0⟩

theorem smallVol_map (x : Nat) : smallVol.map x = fun _ => 0 := by
  rw [Vol.map]
  split
  · rename_i h
    obtain ⟨hlt, -⟩ := h
    rcases (Nat.lt_succ_iff_lt_or_eq.mp hlt).imp Nat.lt_one_iff.mp id with rfl | rfl
    · decide +kernel
    · decide +kernel
  · rfl

theorem smallVol_holds : Holds smallVol smallVol.node := by
  have hrefs : ∀ q, refs smallVol.disk smallVol.map q = 0 := by
    rintro ⟨x, p⟩
    rw [refs, smallVol_map]
    cases p with
    | addr | word => rfl
  refine ⟨⟨by decide, by decide +kernel⟩, ⟨fun q hq => absurd (hrefs q) hq,
    fun q _ hq => absurd (hrefs q) hq, fun b h₁ h₂ => ?_, ?_⟩, fun x hx => ?_, fun _ _ => rfl,
    fun _ _ => rfl⟩
  · have hbit : ∀ b, 4 ≤ b → b < 8 → smallVol.bit b = false := by decide +kernel
    rw [hbit b h₁ h₂]
    refine ⟨by simp, ?_⟩
    rintro ⟨q, hq⟩
    rw [hrefs q] at hq
    rw [← hq] at h₁
    exact absurd h₁ (by decide)
  · show ∀ b, b < 4 → smallVol.bit b = true
    decide +kernel
  · have hsize : ∀ x, x < 2 → (smallVol.dinode x).size = 0 := by decide +kernel
    rw [hsize x hx.1]
    exact ⟨Nat.zero_le _, fun k hk => absurd hk (Nat.not_lt_zero k)⟩

end Xv6.Fs
