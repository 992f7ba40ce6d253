import Prs.Model.GodSeq
import Prs.Model.Idllist
import Prs.Model.UserText

/-!
# The list of processes and their garbage collection (`proc.c`)

A process is a node of `s_prs_proc_data->list`, an object of the directory and an entry of the range table.
The free callback of the object, which the directory calls for the last reference, takes it out of the list
and clears the entry. The calls are made one after another, and a callback that a process has registered for
its end does not call the directory or the process module. `F` is the type of these callbacks.

The loops over the list have no result after more nodes than they are given. `ran` and `freed` are history:
the callbacks that were run and the processes that were freed.
-/

namespace Prs.ProcGc

open Function

/-- The fields of `struct prs_proc` that are read here, with the base and the size of its `pal_proc`. -/
structure Proc (F : Type) where
  id : ℕ
  destroyed : Bool
  atexitCallbacks : Option (List F)
  rangeTableIndex : ℕ
  base : ℕ
  size : ℕ

/-- An object of the directory, by its `ops`. A process is named by its node. -/
inductive Obj
  | proc (node : ℕ)
  | other (o : ℕ)
  deriving DecidableEq

structure St (F : Type) where
  list : Idllist Unit
  proc : ℕ → Proc F
  god : GodSeq.Dir Obj
  table : UserText.Table
  ran : List F
  freed : List ℕ

/-- What the calls are compiled with: the flags, the number of entries of the directory, and the bound on the
loops. -/
structure Env where
  build : Idllist.Build
  k : ℕ
  n : ℕ

variable {F : Type}

/-- `prs_proc_run_atexit_callbacks`, when there is a queue. -/
def St.runAtexit (s : St F) (node : ℕ) : St F :=
  match (s.proc node).atexitCallbacks with
  | some callbacks => { s with ran := s.ran ++ callbacks }
  | none => s

/-- `prs_proc_object_free`. No result is that of a fatal error. -/
def St.objectFree (e : Env) (s : St F) (node : ℕ) : Option (St F) :=
  let s := s.runAtexit node
  match s.list.isInserted e.n () node with
  | none => none
  | some false => some { s with freed := s.freed ++ [node] }
  | some true =>
    -- `prs_proc_range_table_del`
    (s.table.del (s.proc node).rangeTableIndex).map fun table =>
      { s with list := s.list.remove e.build () node, table := table, freed := s.freed ++ [node] }

/-- The free callback of an object. -/
def St.free (e : Env) (s : St F) (object : Option Obj) : Option (St F) :=
  match object with
  | some (.proc node) => s.objectFree e node
  | _ => some s

/-- `prs_god_try_unlock_final`, with the free callback. -/
def St.tryUnlockFinal (e : Env) (s : St F) (id : ℕ) : Option (GodSeq.FinalResult × St F) :=
  let r := s.god.tryUnlockFinal e.build.checks e.k id
  (({ s with god := r.2.2 } : St F).free e r.2.1).map fun s => (r.1, s)

/-- `prs_proc_gc` between two of its walks: `PRS_EMPTY`, or what the last call of the directory returned. -/
abbrev Outcome : Type := Option GodSeq.FinalResult

/-- The walk of `prs_proc_gc` from a node on, with `result`. -/
def St.walk (e : Env) : ℕ → St F → Option ℕ → Outcome → Option (Outcome × St F)
  | _, s, none, result => some (result, s)
  | 0, _, some _, _ => none
  | n + 1, s, some node, result =>
    if (s.proc node).destroyed then
      match s.tryUnlockFinal e (s.proc node).id with
      | none => none
      | some (r, s) => if r = .ok then some (some r, s) else s.walk e n (s.list.next node) (some r)
    else s.walk e n (s.list.next node) result

/-- The outer loop of `prs_proc_gc`, for at most `m` walks. -/
def St.gcLoop (e : Env) : ℕ → St F → Option (St F)
  | 0, _ => none
  | m + 1, s =>
    match s.walk e e.n (s.list.begin ()) none with
    | none => none
    | some (result, s) => if result = some .ok then s.gcLoop e m else some s

/-- `prs_proc_gc`. -/
def St.gc (e : Env) (s : St F) : Option (St F) := s.gcLoop e e.n

/-! ## Runs -/

/-- `exec` is `prs_proc_exec` or `prs_proc_init_main`, for a process at `node` whose image is at `base`;
`execFails` is a `prs_proc_exec` that cannot load its file. -/
inductive Act (F : Type)
  | exec (node base size : ℕ)
  | execFails (node : ℕ)
  | alloc (o : ℕ)
  | lock (id : ℕ)
  | unlock (id : ℕ)
  | atexit (node : ℕ) (callback : F)
  | destroy (node : ℕ)
  | gc

/-- The part of `prs_proc_exec` that makes the process an object, a node and an entry. No result is that of a
fatal error. -/
def St.exec (e : Env) (s : St F) (node base size : ℕ) : Option (St F) :=
  let r := s.god.alloc e.k (.proc node)
  if r.1 = GodSeq.invalid then none
  else
    (s.table.add base size).map fun x =>
      { s with
        list := s.list.insertBefore e.build () none node
        proc := update s.proc node ⟨r.1, false, some [], x.1, base, size⟩
        god := r.2
        table := x.2 }

/-- `prs_god_unlock`, with the free callback. -/
def St.unlock (e : Env) (s : St F) (id : ℕ) : Option (St F) :=
  let r := s.god.unlock e.k id
  ({ s with god := r.2 } : St F).free e r.1

/-- The part of `prs_proc_exec` that makes the process an object, and its `cleanup`. -/
def St.execFails (e : Env) (s : St F) (node : ℕ) : Option (St F) :=
  let r := s.god.alloc e.k (.proc node)
  if r.1 = GodSeq.invalid then none
  else ({ s with proc := update s.proc node ⟨r.1, false, some [], 0, 0, 0⟩, god := r.2 } : St F).unlock e r.1

def St.step (e : Env) (s : St F) : Act F → Option (St F)
  | .exec node base size => s.exec e node base size
  | .execFails node => s.execFails e node
  | .alloc o => some { s with god := (s.god.alloc e.k (.other o)).2 }
  | .lock id => some { s with god := (s.god.lock e.k id).2 }
  | .unlock id => s.unlock e id
  | .atexit node callback =>
    let p := s.proc node
    some { s with
      proc := update s.proc node { p with atexitCallbacks := p.atexitCallbacks.map (· ++ [callback]) } }
  | .destroy node => some { s with proc := update s.proc node { s.proc node with destroyed := true } }
  | .gc => s.gc e

/-- No process is there, and no object. -/
def St.start (proc : ℕ → Proc F) : St F := ⟨.create, proc, .create, UserText.St.start.table, [], []⟩

/-- A process is made in memory that no process of the list has, and its image is of a size at an address. -/
def Allowed (e : Env) (s : St F) : Act F → Prop
  | .exec node base size => s.list.isInserted e.n () node = some false ∧ base ≠ 0 ∧ base + size < 2 ^ 64
  | .execFails node => s.list.isInserted e.n () node = some false
  | _ => True

/-- Calls in any order. -/
def sys (e : Env) : System (St F) (Act F) where
  init s := ∃ proc, s = St.start proc
  step := St.step e

end Prs.ProcGc
