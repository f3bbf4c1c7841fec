import DepthOS.Spec.String

/-! `task_init_stack` of `kernel/proc.c`: the strings of `argv` and `envp`, and the pointers to
them, pushed onto the stack of a new program, whose `esp` is kept in the saved registers. The
two arrays are rewritten in place. Memory is that of the task's address space; a loop over an
array takes fuel, since memory need not hold a NULL. -/

namespace DepthOS

open Lib

structure PushState where
  mem : Mem
  esp : ℕ

/-- `PUSH(v, uint32_t)`, and `PUSHP(v)`. -/
def PushState.push (s : PushState) (v : ℕ) : PushState :=
  ⟨store32 s.mem (sub32 s.esp 4) v, sub32 s.esp 4⟩

/-- `PUSH(v, uint64_t)`: the low word lies below the high one. -/
def PushState.push64 (s : PushState) (v : ℕ) : PushState :=
  (s.push (v / 4294967296)).push (u32 v)

/-- The saved registers as `_task_init_kstack` pushes them, the selectors given; the address
of the last is `regs`. -/
def taskInitKstack (m : Mem) (kernelEsp selcode seldata selgs selfs entry esp : ℕ) : PushState :=
  let s := [seldata, esp, 0x202, selcode, entry, 0, 0, 0].foldl PushState.push ⟨m, kernelEsp⟩
  [0, 0, 0, 0, s.esp, 0, 0, 0, seldata, seldata, selgs, selfs].foldl PushState.push s

/-- `&regs->useresp`. -/
def userespAt (regs : ℕ) : ℕ := regs + 72

/-- The loop over the strings of an array, from index `i` on: `memcpy` of one with its NUL,
and its new address. The index it stops at is the number of strings. -/
def pushStrings (arr : ℕ) : (fuel : ℕ) → PushState → (i : ℕ) → Option (PushState × ℕ)
  | 0, _, _ => none
  | fuel + 1, s, i =>
    let p := load32 s.mem (arr + 4 * i)
    if p = 0 then some (s, i)
    else
      match strlen fuel s.mem p with
      | none => none
      | some n =>
        let esp := sub32 s.esp (n + 1)
        let m := blit s.mem esp (fun k => s.mem (p + k)) (n + 1)
        pushStrings arr fuel ⟨store32 m (arr + 4 * i) esp, esp⟩ (i + 1)

/-- The array may be NULL. -/
def pushArray (arr fuel : ℕ) (s : PushState) : Option (PushState × ℕ) :=
  if arr ≠ 0 then pushStrings arr fuel s 0 else some (s, 0)

/-- The pointers of `envp`, from the first on. -/
def pushEnvp (envp : ℕ) : (fuel : ℕ) → PushState → (i : ℕ) → Option PushState
  | 0, _, _ => none
  | fuel + 1, s, i =>
    let p := load32 s.mem (envp + 4 * i)
    if p = 0 then some s else pushEnvp envp fuel (s.push p) (i + 1)

/-- The pointers of `argv`, from the last on. -/
def pushArgv (argv : ℕ) : (argc : ℕ) → PushState → PushState
  | 0, s => s
  | i + 1, s => pushArgv argv i (s.push (load32 s.mem (argv + 4 * i)))

/-- The pointers, with `argc` below them. -/
def pushVectors (fuel argv envp argc : ℕ) (s : PushState) : Option PushState :=
  let s := (s.push64 0).push 0
  (if envp ≠ 0 then pushEnvp envp fuel s 0 else some (s.push 0)).map fun s =>
    (pushArgv argv argc (s.push 0)).push argc

/-- 0 for `argv` or `envp` is NULL. -/
def taskInitStack (fuel : ℕ) (m : Mem) (regs argv envp : ℕ) : Option Mem := do
  let s : PushState := ⟨m, load32 m (userespAt regs)⟩
  let (s, _) ← pushArray envp fuel s
  let (s, argc) ← pushArray argv fuel s
  let s ← pushVectors fuel argv envp argc s
  some (store32 s.mem (userespAt regs) s.esp)

/-- The bytes the strings take. -/
def strBytes (l : List (List Byte)) : ℕ := (l.map fun s => s.length + 1).sum

/-- The bytes of everything pushed. -/
def stackBytes (envp : ℕ) (args envs : List (List Byte)) : ℕ :=
  strBytes envs + strBytes args + 12 + (if envp ≠ 0 then 4 * envs.length else 4) + 4 +
    4 * args.length + 4

/-- The array holds these strings; NULL holds none. -/
def ArrayOf (Q : ℕ → Prop) (m : Mem) (arr : ℕ) (l : List (List Byte)) : Prop :=
  if arr ≠ 0 then StrList Q m arr l else l = []

/-- The address lies in the array. -/
def InArray (arr : ℕ) (l : List (List Byte)) (x : ℕ) : Prop :=
  arr ≠ 0 ∧ arr ≤ x ∧ x < arr + 4 * (l.length + 1)

/-- What `task_init_stack` is called with: everything fits between `low` and the stack
pointer `top`, and what it reads lies outside, the strings outside of both arrays as well. -/
structure StackArgs (m : Mem) (regs argv envp low top : ℕ) (args envs : List (List Byte)) :
    Prop where
  useresp : load32 m (userespAt regs) = top
  fits : low + stackBytes envp args envs ≤ top
  argStrings : ArrayOf (fun x => (x < low ∨ top ≤ x) ∧ ¬ InArray argv args x ∧
    ¬ InArray envp envs x) m argv args
  envStrings : ArrayOf (fun x => (x < low ∨ top ≤ x) ∧ ¬ InArray argv args x ∧
    ¬ InArray envp envs x) m envp envs
  argArray : ∀ x, InArray argv args x → (x < low ∨ top ≤ x) ∧ ¬ InArray envp envs x
  envArray : ∀ x, InArray envp envs x → x < low ∨ top ≤ x
  regs : Apart (userespAt regs) 4 low (top - low)

end DepthOS
