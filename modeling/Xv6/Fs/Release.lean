/-
# `Xv6.Fs.Release` — the last reference to an inode without links

`iput` frees an inode without links when it drops the last reference.  It looks
at `ref` in one section on `icache` and drops its reference in a later one, with
the inode unlocked in between.  One process that drops the references it holds
one after the other sees `ref == 1` in its last call.  Two processes can both
look before either of them drops: neither sees `ref == 1`, and the inode stays
allocated with no reference and no link.
-/
import Mathlib.Algebra.Order.BigOperators.Group.Finset
import Xv6.Fs.Syscall
import Xv6.Fs.Update

namespace Xv6.Fs

open Machine Bytes Finset
open Wp (ok_of_bind)
open Function (update update_of_ne update_self)

variable {P : Type} {i : InodeId} {x m : Nat}

/-! ## What `itrunc` leaves -/

namespace Vol

/-- The disk inode `x` is free and has neither size nor blocks. -/
def Freed (v : Vol) (x : Nat) : Prop :=
  (v.dinode x).type = 0 ∧ (v.dinode x).size = 0 ∧ (v.dinode x).addrs = fun _ => 0

variable {v w : Vol}

theorem addrs_of_bfree {b : Nat} (h : v.bfree b = .ok w) : w.addrs = v.addrs := by
  simp only [bfree] at h
  split at h
  · cases h
    rfl
  · cases h

/-- `freeAddr` clears its address and sets none. -/
theorem addrs_of_freeAddr {j : Fin (NDIRECT + 1)} (h : freeAddr i v j = .ok w) :
    w.addrs i j = 0 ∧ ∀ l, v.addrs i l = 0 → w.addrs i l = 0 := by
  simp only [freeAddr] at h
  split at h
  · next h₀ =>
      cases h
      exact ⟨h₀, fun _ hl => hl⟩
  · obtain ⟨u, hu, hw⟩ := ok_of_bind h
    cases hw
    simp only [setAddr, update_self, addrs_of_bfree hu]
    refine ⟨rfl, fun l hl => ?_⟩
    by_cases hj : l = j
    · subst hj
      exact update_self ..
    · rwa [update_of_ne hj]

theorem addrs_of_freeDirect : ∀ {l : List (Fin (NDIRECT + 1))} {v : Vol},
    l.foldlM (freeAddr i) v = .ok w →
      ∀ j, j ∈ l ∨ v.addrs i j = 0 → w.addrs i j = 0
  | [], v, h, j, hj => by
    cases h
    exact hj.resolve_left (List.not_mem_nil)
  | j :: l, v, h, k, hk => by
    rw [List.foldlM_cons] at h
    obtain ⟨u, hu, h⟩ := ok_of_bind h
    obtain ⟨hj, hkeep⟩ := addrs_of_freeAddr hu
    refine addrs_of_freeDirect h k ?_
    rcases hk with hk | hk
    · rcases List.mem_cons.mp hk with rfl | hk
      · exact .inr hj
      · exact .inl hk
    · exact .inr (hkeep k hk)

theorem addrs_of_freeWords {a : Block} : ∀ {l : List Nat} {v : Vol},
    l.foldlM (freeWords a) v = .ok w → w.addrs = v.addrs
  | [], v, h => by
    cases h
    rfl
  | j :: l, v, h => by
    rw [List.foldlM_cons] at h
    obtain ⟨u, hu, h⟩ := ok_of_bind h
    rw [addrs_of_freeWords h]
    simp only [freeWords] at hu
    split at hu
    · cases hu
      rfl
    · exact addrs_of_bfree hu

theorem addrs_of_freeBlocks (h : freeBlocks i v = .ok w) : w.addrs i = fun _ => 0 := by
  obtain ⟨u, hu, h⟩ := ok_of_bind h
  have hdirect : ∀ j, j ≠ Fin.last NDIRECT → u.addrs i j = 0 := fun j hj =>
    addrs_of_freeDirect hu j (.inl (mem_direct.mpr hj))
  dsimp only at h
  split at h
  · next h₀ =>
      cases h
      funext j
      by_cases hj : j = Fin.last NDIRECT
      · rw [hj, h₀]
      · exact hdirect j hj
  · obtain ⟨u', hu', h⟩ := ok_of_bind h
    obtain ⟨hlast, hkeep⟩ := addrs_of_freeAddr h
    funext j
    by_cases hj : j = Fin.last NDIRECT
    · rw [hj, hlast]
    · exact hkeep j (by rw [addrs_of_freeWords hu', hdirect j hj])

/-- **`itrunc` and the `iupdate` after it** leave a free inode. -/
theorem freed_of_itrunc {a b : Attr} (h : itrunc i x a v = .ok w) (hb : b.type = 0) :
    (w.iupdate i x b).Freed x := by
  obtain ⟨u, hu, hw⟩ := ok_of_bind h
  cases hw
  rw [Freed, iupdate, dinode_setDinode, if_pos rfl]
  refine ⟨hb, ?_, addrs_of_freeBlocks hu⟩
  exact update_self ..

end Vol

/-! ## The calls -/

/-- The calls of `iput` by a process that drops `n` references. -/
def iputs (i : InodeId) : Nat → FsProg Unit
  | 0 => .ret ()
  | n + 1 => do
    iput i
    iputs i n

/-- Inode `x` is cached in the entry `i`, valid, unlocked and without links, and has
`m` references. -/
structure Held (i : InodeId) (x m : Nat) (k : Kernel P) : Prop where
  inum : (k.inode i).inum = x
  valid : (k.inode i).valid = true
  nlink : (k.inode i).nlink = 0
  ref : (k.inode i).ref = m
  lock : (k.inode i).lock = none

/-- If no reference is left, the inode is free. -/
def State.NoOrphan (i : InodeId) (x : Nat) (s : State P Vol) : Prop :=
  (s.k.inode i).ref = 0 → s.d.Freed x

/-- Process `p` drops `n p` references, for every `p`: whatever the interleaving of the
sections of `iput`, the inode is not left allocated without a reference. -/
def LastFrees [DecidableEq P] (env : Env) (i : InodeId) (x : Nat) (n : P → Nat)
    (s : State P Vol) : Prop :=
  ∀ ts st, Trace.Run (step (exec blockStore env)) (s, fun p => iputs i (n p)) ts st →
    st.1.NoOrphan i x

/-- The end of `iput`. -/
def drop (i : InodeId) (k : FsProg Unit) : FsProg Unit :=
  .op (.releasesleep i) fun _ => .op (.decref i) fun _ => k

theorem ite_then {c : Prop} [Decidable c] {x y x' y' : FsProg Unit} {k : FsProg Unit}
    (hx : (do x; k) = x') (hy : (do y; k) = y') :
    (do (if c then x else y); k) = if c then x' else y' := by
  split
  · exact hx
  · exact hy

theorem iput_then (k : FsProg Unit) : (do iput i; k) =
    .op (.acquiresleep i .iput) fun _ => .op (.valid i) fun (v : Bool) =>
      if v then .op (.attr i) fun (a : Attr) =>
        if a.nlink = 0 then .op (.ref i) fun (r : Int) =>
          if r = 1 then .op (.ifree i) fun _ => drop i k else drop i k
        else drop i k
      else drop i k := by
  refine congrArg (Prog.op _) (funext fun _ => congrArg (Prog.op _) (funext fun (v : Bool) => ?_))
  refine ite_then (congrArg (Prog.op _) (funext fun (a : Attr) => ?_)) rfl
  refine ite_then (congrArg (Prog.op _) (funext fun (r : Int) => ?_)) rfl
  exact ite_then rfl rfl

variable {s : State P Vol}

def State.withLock (s : State P Vol) (i : InodeId) (l : Option P) : State P Vol :=
  { s with k := s.k.modify i fun ip => { ip with lock := l } }

def State.decref (s : State P Vol) (i : InodeId) : State P Vol :=
  { s with k := s.k.modify i fun ip => { ip with ref := ip.ref - 1 } }

@[simp] theorem State.withLock_inode (l : Option P) :
    (s.withLock i l).k.inode i = { s.k.inode i with lock := l } :=
  update_self ..

@[simp] theorem State.decref_inode :
    (s.decref i).k.inode i = { s.k.inode i with ref := (s.k.inode i).ref - 1 } :=
  update_self ..

theorem State.withLock_withLock (l l' : Option P) :
    (s.withLock i l).withLock i l' = s.withLock i l' := by
  simp [State.withLock, Kernel.modify]

namespace Held

theorem withLock_none (h : Held i x m s.k) : s.withLock i none = s := by
  have hi : { s.k.inode i with lock := none } = s.k.inode i := by rw [← h.lock]
  simp [State.withLock, Kernel.modify, hi]

theorem decref (h : Held i x (m + 1) s.k) : Held i x m (s.decref i).k where
  inum := by rw [State.decref_inode]; exact h.inum
  valid := by rw [State.decref_inode]; exact h.valid
  nlink := by rw [State.decref_inode]; exact h.nlink
  ref := by
    rw [State.decref_inode]
    show (s.k.inode i).ref - 1 = m
    rw [h.ref]
    omega
  lock := by rw [State.decref_inode]; exact h.lock

theorem noOrphan (h : Held i x (m + 1) s.k) (l : Option P) : (s.withLock i l).NoOrphan i x := by
  intro h₀
  rw [State.withLock_inode] at h₀
  exact absurd (h.ref.symm.trans h₀) (by omega)

variable [DecidableEq P] {E : Env} {p : P} {I : State P Vol → Prop} {k : FsProg Unit}

theorem looks (h : Held i x m s.k) (hI : ∀ l, I (s.withLock i l)) :
    Passes (exec blockStore E p) I
      (if (m : Int) = 1 then .op (.ifree i) fun _ => drop i k else drop i k)
      (s.withLock i (some p)) (do iput i; k) s := by
  have hs : I s := by rw [← h.withLock_none]; exact hI none
  have hlock : exec blockStore E p (.acquiresleep i .iput) s = .ok () (s.withLock i (some p)) := by
    simp only [exec, h.lock]
    rfl
  generalize ht : s.withLock i (some p) = t at hlock
  have hI : I t := by rw [← ht]; exact hI _
  have hi : t.k.inode i = { s.k.inode i with lock := some p } := by rw [← ht, State.withLock_inode]
  have hvalid : exec blockStore E p (.valid i) t = .ok true t := by
    simp only [exec, hi, h.valid]
  have hattr : exec blockStore E p (.attr i) t = .ok (s.k.inode i).toAttr t := by
    simp only [exec, hi]
  have href : exec blockStore E p (.ref i) t = .ok (m : Int) t := by
    simp only [exec, hi, h.ref]
  rw [iput_then]
  refine .call hs hlock (.call hI hvalid (.call hI hattr ?_))
  rw [if_pos h.nlink]
  exact .call hI href .here

/-- Where there is another reference, `iput` comes to its last section with nothing changed. -/
theorem parks (h : Held i x m s.k) (hm : m ≠ 1) (hI : ∀ l, I (s.withLock i l)) :
    Passes (exec blockStore E p) I (.op (.decref i) fun _ => k) s (do iput i; k) s := by
  have hlook := h.looks (E := E) (p := p) (k := k) hI
  rw [if_neg (by omega)] at hlook
  have hrel : exec blockStore E p (.releasesleep i) (s.withLock i (some p)) = .ok () s :=
    congrArg (Out.ok ()) ((State.withLock_withLock _ none).trans h.withLock_none)
  exact hlook.trans (.call (hI _) hrel .here)

end Held

/-! ## One process -/

variable [DecidableEq P] {E : Env} {p : P}

/-- Once the inode is free, the rest of `iput` leaves it so. -/
theorem drop_frees (h : s.d.Freed x) :
    Always (exec blockStore E p) (State.NoOrphan i x) (drop i (.ret ())) s := by
  refine ⟨fun _ => h, fun _ s₁ h₁ => ⟨?_, fun _ s₂ h₂ => ?_⟩⟩
  · cases h₁
    exact fun _ => h
  · cases h₁
    cases h₂
    exact fun _ => h

/-- **The last of the calls of one process frees the inode.** -/
theorem iputs_frees : ∀ {n : Nat} {s : State P Vol}, Held i x (n + 1) s.k →
    Always (exec blockStore E p) (State.NoOrphan i x) (iputs i (n + 1)) s
  | 0, s, h => by
    refine (h.looks h.noOrphan).always ?_
    rw [if_pos (by rfl)]
    refine ⟨h.noOrphan _, fun _ s₁ h₁ => ?_⟩
    simp only [exec, State.withLock_inode, h.inum] at h₁
    cases hd : blockStore.itrunc i x (s.k.inode i).toAttr (s.withLock i (some p)).d with
    | error e =>
      rw [hd] at h₁
      cases h₁
    | ok d =>
      rw [hd] at h₁
      cases h₁
      exact drop_frees (Vol.freed_of_itrunc hd rfl)
  | n + 1, s, h => by
    refine (h.parks (by omega) h.noOrphan).always ⟨?_, fun _ s₁ h₁ => ?_⟩
    · rw [← h.withLock_none]
      exact h.noOrphan none
    · cases h₁
      exact iputs_frees h.decref

/-! ## Several processes -/

/-- A process drops `c` of its references while there is another one. -/
theorem Held.puts {I : State P Vol → Prop} (hI : ∀ s, I s) {e : Nat} : ∀ {c : Nat} {s : State P Vol},
    Held i x (m + 1 + c) s.k → ∃ t : State P Vol, Held i x (m + 1) t.k ∧ t.d = s.d ∧
      Passes (exec blockStore E p) I (iputs i e) t (iputs i (c + e)) s
  | 0, s, h => ⟨s, h, rfl, by rw [Nat.zero_add]; exact .here⟩
  | c + 1, s, h => by
    obtain ⟨t, ht, hd, hr⟩ := Held.puts hI (e := e) (s := s.decref i) (c := c) h.decref
    refine ⟨t, ht, hd, ?_⟩
    rw [Nat.succ_add]
    exact (h.parks (by omega) fun _ => hI _).trans (.call (hI _) rfl hr)

variable {f : P → FsProg Unit} {n : P → Nat}

/-- All processes of `S` drop all their references, while there is another one. -/
theorem Held.others {S : Finset P} : ∀ {f : P → FsProg Unit} {s : State P Vol},
    (∀ q ∈ S, f q = iputs i (n q)) → Held i x (1 + ∑ q ∈ S, n q) s.k →
    ∃ ts t g, Trace.Run (step (exec blockStore E)) (s, f) ts (t, g) ∧ Held i x 1 t.k ∧
      t.d = s.d ∧ ∀ q, q ∉ S → g q = f q := by
  induction S using Finset.induction with
  | empty =>
    intro f s _ h
    exact ⟨[], s, f, .nil, h, rfl, fun _ _ => rfl⟩
  | insert q S hq ih =>
    intro f s hf h
    rw [sum_insert hq, Nat.add_comm (n q), ← Nat.add_assoc, Nat.add_comm 1] at h
    obtain ⟨s₁, h₁, hd₁, hr₁⟩ := h.puts
      (fun _ => trivial) (e := 0)
    obtain ⟨ts₁, hts₁⟩ := hr₁.run (hf q (mem_insert_self q S))
    obtain ⟨ts, t, g, hts, ht, hd, hg⟩ := ih (f := update f q (iputs i 0))
      (fun r hr => by
        have hne : r ≠ q := by rintro rfl; exact hq hr
        rw [update_of_ne hne, hf r (mem_insert_of_mem hr)])
      (by rw [Nat.add_comm 1]; exact h₁)
    refine ⟨_, t, g, hts₁.append hts, ht, hd.trans hd₁, fun r hr => ?_⟩
    rw [mem_insert, not_or] at hr
    rw [hg r hr.2, update_of_ne hr.1]

/-- Of two processes that hold references, one looks before the others drop theirs and
drops its own last: nobody sees a last reference. -/
theorem exists_unfreed [Fintype P] {q : P} (h : Held i x (∑ p, n p) s.k) (hp : 0 < n p)
    (hq : 0 < n q) (hpq : p ≠ q) :
    ∃ ts st, Trace.Run (step (exec blockStore E)) (s, fun p => iputs i (n p)) ts st ∧
      (st.1.k.inode i).ref = 0 ∧ st.1.d = s.d := by
  have hsum : ∑ p, n p = n p + ∑ r ∈ Finset.univ.erase p, n r :=
    (add_sum_erase _ n (mem_univ p)).symm
  have hle : n q ≤ ∑ r ∈ Finset.univ.erase p, n r :=
    single_le_sum (fun _ _ => Nat.zero_le _)
      (mem_erase.mpr ⟨hpq.symm, mem_univ q⟩)
  -- all calls of `p` but the last, and that one up to its last section
  obtain ⟨s₁, h₁, hd₁, hr₁⟩ := Held.puts (m := ∑ r ∈ Finset.univ.erase p, n r) (c := n p - 1)
    (E := E) (p := p) (fun _ => trivial) (e := 1)
    (by rw [hsum] at h; convert h using 1; omega)
  have hpark := hr₁.trans (h₁.parks (by omega) fun _ => trivial)
  obtain ⟨ts₁, hts₁⟩ := hpark.run (by rw [Nat.sub_add_cancel hp])
  obtain ⟨ts₂, s₂, g, hts₂, h₂, hd₂, hg⟩ := Held.others
    (f := update (fun p => iputs i (n p)) p (.op (.decref i) fun _ => .ret ()))
    (fun r hr => update_of_ne (ne_of_mem_erase hr) ..)
    (by rw [Nat.add_comm 1]; exact h₁)
  have hgp : g p = .op (.decref i) fun _ => .ret () := by
    rw [hg p (notMem_erase p _), update_self]
  have hlast : step (exec blockStore E) (s₂, g) p =
      some (s₂.decref i, update g p (.ret ())) := by
    simp only [step, hgp]
    rfl
  refine ⟨_, _, .snoc p (hts₁.append hts₂) hlast, ?_, hd₂.trans hd₁⟩
  have h₀ : Held i x 0 (s₂.decref i).k := h₂.decref
  exact h₀.ref

/-- **The last reference to an inode without links frees it** in every interleaving if and
only if all references belong to one process. -/
theorem lastFrees_iff [Fintype P] (env : Env) (h : Held i x (∑ p, n p) s.k) (hpos : 0 < ∑ p, n p)
    (halloc : (s.d.dinode x).type ≠ 0) :
    LastFrees env i x n s ↔ ∀ p q, 0 < n p → 0 < n q → p = q := by
  constructor
  · intro hfrees p q hp hq
    by_contra hpq
    obtain ⟨ts, st, hr, hz, hd⟩ := exists_unfreed (E := env) h hp hq hpq
    have hf := hfrees ts st hr hz
    rw [hd] at hf
    exact halloc hf.1
  · intro hone ts st hr
    obtain ⟨p, -, hp⟩ := exists_ne_zero_of_sum_ne_zero hpos.ne'
    have hothers : ∀ q, q ≠ p → n q = 0 := by
      intro q hq
      by_contra hn
      exact hq (hone q p (Nat.pos_of_ne_zero hn) (Nat.pos_of_ne_zero hp))
    rw [sum_eq_single p (fun q _ hq => hothers q hq) (by simp)] at h
    obtain ⟨c, hc⟩ := Nat.exists_eq_succ_of_ne_zero hp
    rw [hc] at h
    refine Always.of_run (t := p) (I := State.NoOrphan i x) ?_ (fun q hq => ⟨(), ?_⟩) hr
    · rw [hc]
      exact iputs_frees h
    · rw [hothers q hq]
      rfl

def entry0 : InodeId := ⟨0, by decide⟩

/-- A removed file with two references, on a disk that holds no other inode. -/
def removedFile : State Bool Vol where
  k :=
    { inode := fun _ => ⟨⟨T_FILE, 0, 0, 0⟩, 1, 2, none, true⟩
      file := fun _ => ⟨.none, 0, false, false, entry0, 0⟩
      cwd := fun _ => none
      ofile := fun _ _ => none }
  d := Vol.setDinode ⟨Superblock.read fun _ => Buffer.zero, fun _ => Buffer.zero, fun _ => 0,
    fun _ _ => 0⟩ 1 ⟨T_FILE, 0, 0, 0, 0, fun _ => 0⟩

theorem removedFile_type : (removedFile.d.dinode 1).type = T_FILE := by
  rw [removedFile, Vol.dinode_setDinode, if_pos rfl]

/-- An environment without devices and pipes. -/
def noDevices : Env := ⟨fun _ => none, fun _ => none, fun _ => none, fun _ => -1⟩

/-- Both references belong to one process. -/
theorem lastFrees_one : LastFrees noDevices entry0 1 (fun b => if b then 2 else 0) removedFile :=
  (lastFrees_iff (x := 1) noDevices ⟨rfl, rfl, rfl, by decide, rfl⟩ (by decide)
    (by rw [removedFile_type]; decide)).mpr (by decide)

/-- Two processes close the removed file, and it stays allocated. -/
theorem orphan_of_two_iputs : ∃ ts st,
    Trace.Run (step (exec blockStore noDevices)) (removedFile, fun _ => iputs entry0 1) ts st ∧
      (st.1.k.inode entry0).ref = 0 ∧ (st.1.d.dinode 1).type = T_FILE := by
  have hheld : Held entry0 1 (∑ _p : Bool, 1) removedFile.k := ⟨rfl, rfl, rfl, by decide, rfl⟩
  obtain ⟨ts, st, hr, hz, hd⟩ := exists_unfreed (E := noDevices) (p := false) (q := true)
    (n := fun _ => 1) hheld (by decide) (by decide) (by decide)
  exact ⟨ts, st, hr, hz, by rw [hd, removedFile_type]⟩

end Xv6.Fs
