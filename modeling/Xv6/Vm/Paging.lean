/-
# `Xv6.Vm.Paging` — page directories and page tables

`vm.c`: `walkpgdir`, `mappages`, `setupkvm`, `allocuvm`, `deallocuvm`, `freevm`,
`clearpteu` and `copyuvm`, on the memory of `Xv6.Vm.Kalloc`.  A pointer to an entry is
a page and an index into it.  The loops are recursive functions of the source's loop
variable.
-/
import Mathlib.Data.List.FinRange
import Xv6.Vm.Kalloc

namespace Xv6.Vm

def walkpgdir (pgdir va : Word) (alloc : Bool) : M (Option (Word × Idx)) := do
  let pde ← load pgdir (PDX va)
  if Present pde then
    return some (P2V (PTE_ADDR pde), PTX va)
  else if alloc = false then
    return none
  else
    let pgtab ← kalloc
    if pgtab = 0 then
      return none
    else
      fill pgtab zeros
      store pgdir (PDX va) (V2P pgtab ||| PTE_P ||| PTE_W ||| PTE_U)
      return some (pgtab, PTX va)

/-- The body of the loop of `mappages`: false if there is no page for a page table. -/
def mapPage (pgdir a pa perm : Word) : M Bool := do
  match ← walkpgdir pgdir a true with
  | none => return false
  | some (t, j) =>
    let pte ← load t j
    if Present pte then
      throw (.panic .remap)
    else
      store t j (pa ||| perm ||| PTE_P)
      return true

def mapLoop (pgdir last perm : Word) : Nat → Word → Word → M Bool
  | 0, _, _ => throw .forever
  | n + 1, a, pa => do
    if ← mapPage pgdir a pa perm then
      if a = last then
        return true
      else
        mapLoop pgdir last perm n (a + PGSIZE) (pa + PGSIZE)
    else
      return false

/-- `mappages`; false stands for -1. -/
def mappages (pgdir va size pa perm : Word) : M Bool :=
  mapLoop pgdir (PGROUNDDOWN (va + size - 1)) perm turns (PGROUNDDOWN va) pa

section

variable (L : Link)

def deallocLoop (pgdir oldsz : Word) : Nat → Word → M Unit
  | 0, _ => throw .forever
  | n + 1, a =>
    if a < oldsz then do
      match ← walkpgdir pgdir a false with
      | none =>
        deallocLoop pgdir oldsz n
          (PGADDR (BitVec.ofNat 32 (PDX a).val + 1) 0 0 - PGSIZE + PGSIZE)
      | some (t, j) =>
        let pte ← load t j
        if Present pte then
          if PTE_ADDR pte = 0 then
            throw (.panic .kfree)
          else
            kfree L (P2V (PTE_ADDR pte))
            store t j 0
            deallocLoop pgdir oldsz n (a + PGSIZE)
        else
          deallocLoop pgdir oldsz n (a + PGSIZE)
    else
      return ()

def deallocuvm (pgdir oldsz newsz : Word) : M Word := do
  if oldsz ≤ newsz then
    return oldsz
  else
    deallocLoop L pgdir oldsz turns (PGROUNDUP newsz)
    return newsz

/-- The loop of `freevm`, over the indices left. -/
def freeTables (pgdir : Word) : List Idx → M Unit
  | [] => return ()
  | i :: is => do
    let pde ← load pgdir i
    if Present pde then
      kfree L (P2V (PTE_ADDR pde))
      freeTables pgdir is
    else
      freeTables pgdir is

def freevm (pgdir : Word) : M Unit := do
  if pgdir = 0 then
    throw (.panic .freevm)
  else
    let _ ← deallocuvm L pgdir KERNBASE 0
    freeTables L pgdir (List.finRange 1024)
    kfree L pgdir

/-- The loop of `setupkvm`, over the entries left: false as soon as `mappages` fails. -/
def mapKernel (pgdir : Word) : List Kmap → M Bool
  | [] => return true
  | e :: es => do
    if ← mappages pgdir e.virt (e.physEnd - e.physStart) e.physStart e.perm then
      mapKernel pgdir es
    else
      return false

def setupkvm : M Word := do
  let pgdir ← kalloc
  if pgdir = 0 then
    return 0
  else
    fill pgdir zeros
    if DEVSPACE < P2V PHYSTOP then
      throw (.panic .phystop)
    else if ← mapKernel pgdir L.kmap then
      return pgdir
    else
      freevm L pgdir
      return 0

def allocLoop (pgdir oldsz newsz : Word) : Nat → Word → M Word
  | 0, _ => throw .forever
  | n + 1, a =>
    if a < newsz then do
      let mem ← kalloc
      if mem = 0 then
        let _ ← deallocuvm L pgdir newsz oldsz
        return 0
      else
        fill mem zeros
        if ← mappages pgdir a PGSIZE (V2P mem) (PTE_W ||| PTE_U) then
          allocLoop pgdir oldsz newsz n (a + PGSIZE)
        else
          let _ ← deallocuvm L pgdir newsz oldsz
          kfree L mem
          return 0
    else
      return newsz

def allocuvm (pgdir oldsz newsz : Word) : M Word :=
  if KERNBASE ≤ newsz then
    return 0
  else if newsz < oldsz then
    return oldsz
  else
    allocLoop L pgdir oldsz newsz turns (PGROUNDUP oldsz)

def clearpteu (pgdir uva : Word) : M Unit := do
  match ← walkpgdir pgdir uva false with
  | none => throw (.panic .clearpteu)
  | some (t, j) =>
    let pte ← load t j
    store t j (pte &&& ~~~ PTE_U)

/-- The rest of the loop body of `copyuvm` once the entry is known to be present: false
stands for the jump to `bad`. -/
def copyPage (d i pte : Word) : M Bool := do
  let mem ← kalloc
  if mem = 0 then
    return false
  else
    let k ← get
    fill mem (k.mem (P2V (PTE_ADDR pte)))
    mappages d i PGSIZE (V2P mem) (PTE_FLAGS pte)

def copyLoop (pgdir sz d : Word) : Nat → Word → M Bool
  | 0, _ => throw .forever
  | n + 1, i =>
    if i < sz then do
      match ← walkpgdir pgdir i false with
      | none => throw (.panic .copyPte)
      | some (t, j) =>
        let pte ← load t j
        if Present pte then
          if ← copyPage d i pte then
            copyLoop pgdir sz d n (i + PGSIZE)
          else
            return false
        else
          throw (.panic .copyPresent)
    else
      return true

def copyuvm (pgdir sz : Word) : M Word := do
  let d ← setupkvm L
  if d = 0 then
    return 0
  else if ← copyLoop pgdir sz d turns 0 then
    return d
  else
    freevm L d
    return 0

end

end Xv6.Vm
