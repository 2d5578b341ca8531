import ChiffOS.Vfs.Mount

/-! Scripts: `exec_shebang` of `elf.c`, with `strpbrk` of `kutils.c`. The interpreter gets the script and
the arguments behind it. A pointer is also stored at the fixed index 3, of an array that may have three
slots. -/

namespace ChiffOS.Elf

open Vfs

/-- How far the string goes without a byte of the set; `none` if that is behind the end of the buffer. -/
def strcspn (set : List UInt8) : List UInt8 → Option ℕ
  | [] => none
  | b :: s => if b ≠ 0 ∧ b ∉ set then (strcspn set s).map (· + 1) else some 0

/-- The offset in the buffer, `some none` for a null pointer. -/
def strpbrk (buf : List UInt8) (s : ℕ) (set : List UInt8) : Option (Option ℕ) :=
  (strcspn set (buf.drop s)).map fun n => if buf.getD (s + n) 0 ≠ 0 then some (s + n) else none

/-- An array of pointers to strings; a slot that was not written to is `none`, one with a null pointer `some
none`. -/
abbrev ArgArray := List (Option (Option CStr))

def ArgArray.store (args : ArgArray) (i : ℕ) (p : Option CStr) : Option ArgArray :=
  if i < args.length then some (args.set i (some p)) else none

/-- The loop that copies the arguments from `argv[i]` to `args[j]`, `n` rounds. -/
def copyArgs (argv : List CStr) : (n i j : ℕ) → ArgArray → Option (ℕ × ArgArray)
  | 0, _, j, args => some (j, args)
  | n + 1, i, j, args => do
    let p ← argv[i]?
    let args ← args.store j (some p)
    copyArgs argv n (i + 1) (j + 1) args

/-- The error `-ENOEXEC`, or the call of `exec` that ends the function. -/
inductive Shebang where
  | enoexec
  | exec (cmd : CStr) (nargc : ℕ) (args : ArgArray)
  deriving DecidableEq

/-- The part of `exec_shebang` behind the parsing of the line. -/
def shebangArgs (path : CStr) (argc : ℕ) (argv : List CStr) (cmd : CStr) (arg : Option CStr) :
    Option Shebang := do
  let script := path
  let nargc := argc + if arg.isSome then 2 else 1
  let args : ArgArray := List.replicate (nargc + 1) none
  let args ← args.store 0 (some cmd)
  let args ← args.store 1 (arg.or (some script))
  let args ← args.store 2 (if arg.isSome then some script else none)
  let args ← args.store 3 none
  let (j, args) ← copyArgs argv (argc - 1) 1 (if arg.isSome then 3 else 2) args
  let args ← args.store j none
  return .exec cmd nargc args

/-- `tmp` is what the line buffer holds when the file was read. There is no result where an array is left. -/
def execShebang (path : CStr) (argc : ℕ) (argv : List CStr) (tmp : List UInt8) : Option Shebang := do
  match ← strpbrk tmp 2 [0x20, 0x0A] with
  | none => return .enoexec
  | some p =>
    if tmp[p]? = some 0x20 then
      let tmp := tmp.set p 0
      let arg := p + 1
      match ← strpbrk tmp arg [0x0A] with
      | none => return .enoexec
      | some p =>
        let tmp := tmp.set p 0
        shebangArgs path argc argv (strAt tmp 2) (some (strAt tmp arg))
    else
      let tmp := tmp.set p 0
      shebangArgs path argc argv (strAt tmp 2) none

structure FirstLine where
  cmd : CStr
  arg : Option CStr
  cmd_clean : ∀ b ∈ cmd, b ≠ 0 ∧ b ≠ 0x20 ∧ b ≠ 0x0A
  arg_clean : ∀ a, arg = some a → ∀ b ∈ a, b ≠ 0 ∧ b ≠ 0x0A

namespace FirstLine

def text (l : FirstLine) : List UInt8 :=
  0x23 :: 0x21 :: l.cmd ++ (match l.arg with
    | none => [0x0A]
    | some arg => 0x20 :: arg ++ [0x0A])

def vector (l : FirstLine) (path : CStr) (argv : List CStr) : List CStr :=
    l.cmd :: l.arg.toList ++ path :: argv.drop 1

end FirstLine

/-! ### The line -/

theorem strcspn_append {set : List UInt8} {c : UInt8} (hc : c ∈ set) (rest : List UInt8) : ∀ {s : List UInt8},
    (∀ b ∈ s, b ≠ 0 ∧ b ∉ set) → strcspn set (s ++ c :: rest) = some s.length := by
  intro s
  induction s with
  | nil => exact fun _ => if_neg fun h => h.2 hc
  | cons b s ih =>
    intro hs
    have hb := hs b List.mem_cons_self
    rw [List.cons_append, strcspn, if_pos hb, ih fun b' hb' => hs b' (List.mem_cons_of_mem b hb')]
    rfl

theorem set_append_append {α : Type} (front s rest : List α) (c c' : α) :
    (front ++ (s ++ c :: rest)).set (front.length + s.length) c' = front ++ (s ++ c' :: rest) := by
  rw [List.set_append_right _ _ (Nat.le_add_right _ _), Nat.add_sub_cancel_left,
    List.set_append_right _ _ le_rfl, Nat.sub_self,
    List.set_cons_zero]

theorem getElem?_append_append {α : Type} (front s rest : List α) (c : α) :
    (front ++ (s ++ c :: rest))[front.length + s.length]? = some c := by
  rw [List.getElem?_append_right (Nat.le_add_right _ _), Nat.add_sub_cancel_left,
    List.getElem?_append_right le_rfl, Nat.sub_self,
    List.getElem?_cons_zero]

theorem strpbrk_append {set : List UInt8} {c : UInt8} (hc : c ∈ set) (h0 : c ≠ 0) (front rest : List UInt8)
    {s : List UInt8}
    (hs : ∀ b ∈ s, b ≠ 0 ∧ b ∉ set) : strpbrk (front ++ (s ++ c :: rest)) front.length set =
      some (some (front.length + s.length)) := by
  have hat : (front ++ (s ++ c :: rest)).getD (front.length + s.length) 0 = c := by
    rw [List.getD_eq_getElem?_getD, getElem?_append_append, Option.getD_some]
  rw [strpbrk, List.drop_left, strcspn_append hc rest hs, Option.map_some, hat, if_pos h0]

theorem strAt_append (front rest : List UInt8) {s : List UInt8} (hs : ∀ b ∈ s, b ≠ 0) :
    strAt (front ++ (s ++ 0 :: rest)) front.length = s := by
  rw [strAt, List.drop_left, List.takeWhile_append_of_pos fun b hb => decide_eq_true (hs b hb)]
  simp

theorem execShebang_line (l : FirstLine) (rest : List UInt8) (path : CStr) (argc : ℕ) (argv : List CStr) :
    execShebang path argc argv (l.text ++ rest) = shebangArgs path argc argv l.cmd l.arg := by
  obtain ⟨cmd, arg, hcmd, harg⟩ := l
  have hcmd' : ∀ b ∈ cmd, b ≠ 0 ∧ b ∉ [(0x20 : UInt8), 0x0A] := by
    intro b hb
    obtain ⟨h0, h1, h2⟩ := hcmd b hb
    simp [h0, h1, h2]
  have hcmd0 : ∀ b ∈ cmd, b ≠ 0 := fun b hb => (hcmd b hb).1
  cases arg with
  | none =>
    have htext : FirstLine.text ⟨cmd, none, hcmd, harg⟩ ++ rest =
      [0x23, 0x21] ++ (cmd ++ 0x0A :: rest) := by simp [FirstLine.text]
    have hfind : strpbrk ([0x23, 0x21] ++ (cmd ++ 0x0A :: rest)) 2 [0x20, 0x0A] =
      some (some (2 + cmd.length)) :=
      strpbrk_append (by decide) (by decide) [0x23, 0x21] rest hcmd'
    have hat : ([0x23, 0x21] ++ (cmd ++ 0x0A :: rest))[2 + cmd.length]? = some (0x0A : UInt8) :=
      getElem?_append_append [0x23, 0x21] cmd rest 0x0A
    have hset : ([0x23, 0x21] ++ (cmd ++ 0x0A :: rest)).set (2 + cmd.length) (0 : UInt8) =
      [0x23, 0x21] ++ (cmd ++ 0 :: rest) :=
      set_append_append [0x23, 0x21] cmd rest 0x0A 0
    have hstr : strAt ([0x23, 0x21] ++ (cmd ++ 0 :: rest)) 2 = cmd := strAt_append [0x23, 0x21] rest hcmd0
    simp only [execShebang, htext, hfind, hat, hset, hstr, Option.bind_eq_bind, Option.bind_some]
    rfl
  | some arg =>
    have harg' : ∀ b ∈ arg, b ≠ 0 ∧ b ∉ [(0x0A : UInt8)] := by
      intro b hb
      obtain ⟨h0, h1⟩ := harg arg rfl b hb
      simp [h0, h1]
    have htext : FirstLine.text ⟨cmd, some arg, hcmd, harg⟩ ++ rest =
      [0x23, 0x21] ++ (cmd ++ 0x20 :: (arg ++ 0x0A :: rest)) := by
      simp [FirstLine.text]
    have hfind : strpbrk ([0x23, 0x21] ++ (cmd ++ 0x20 :: (arg ++ 0x0A :: rest))) 2 [0x20, 0x0A] =
      some (some (2 + cmd.length)) :=
      strpbrk_append (by decide) (by decide) [0x23, 0x21] _ hcmd'
    have hat : ([0x23, 0x21] ++ (cmd ++ 0x20 :: (arg ++ 0x0A :: rest)))[2 + cmd.length]? =
      some (0x20 : UInt8) :=
      getElem?_append_append [0x23, 0x21] cmd _ 0x20
    -- the command ends with the first zero, and the argument begins behind it
    have hfront : ([0x23, 0x21] ++ cmd ++ [(0 : UInt8)]).length = 2 + cmd.length + 1 := by
      simp only [List.length_append, List.length_cons, List.length_nil]
    have hset : ([0x23, 0x21] ++ (cmd ++ 0x20 :: (arg ++ 0x0A :: rest))).set (2 + cmd.length) (0 : UInt8) =
        ([0x23, 0x21] ++ cmd ++ [0]) ++ (arg ++ 0x0A :: rest) := by
      have h := set_append_append [0x23, 0x21] cmd (arg ++ 0x0A :: rest) 0x20 (0 : UInt8)
      simpa using h
    have hfind' : strpbrk (([0x23, 0x21] ++ cmd ++ [0]) ++ (arg ++ 0x0A :: rest))
      ([0x23, 0x21] ++ cmd ++ [0]).length [0x0A] =
        some (some (([0x23, 0x21] ++ cmd ++ [0]).length + arg.length)) :=
      strpbrk_append (by decide) (by decide) ([0x23, 0x21] ++ cmd ++ [0]) rest harg'
    have hset' := set_append_append ([0x23, 0x21] ++ cmd ++ [0]) arg rest 0x0A (0 : UInt8)
    have hstr' := strAt_append ([0x23, 0x21] ++ cmd ++ [0]) rest fun b hb => (harg' b hb).1
    have hstr : strAt (([0x23, 0x21] ++ cmd ++ [0]) ++ (arg ++ 0 :: rest)) 2 = cmd := by
      rw [List.append_assoc, List.append_assoc]
      exact strAt_append [0x23, 0x21] _ hcmd0
    rw [hfront] at hfind' hset' hstr'
    simp only [execShebang, htext, hfind, hat, hset, hfind', hset', hstr, hstr', Option.bind_eq_bind,
      Option.bind_some, if_true]

/-! ### The vector -/

theorem store_eq {args : ArgArray} {i : ℕ} (h : i < args.length) (p : Option CStr) : args.store i p =
    some (args.set i (some p)) :=
  if_pos h

theorem copyArgs_eq (argv : List CStr) (n : ℕ) : ∀ {i j : ℕ} {front back : ArgArray}, front.length = j →
    n ≤ back.length →
    i + n = argv.length → copyArgs argv n i j (front ++ back) =
      some (j + n, front ++ ((argv.drop i).map (some ∘ some) ++ back.drop n)) := by
  induction n with
  | zero =>
    intro i j front back hj _ hi
    have hnil : argv.drop i = [] := List.drop_eq_nil_of_le hi.ge
    rw [copyArgs, hnil]
    rfl
  | succ n ih =>
    intro i j front back hj hn hi
    cases back with
    | nil => cases hn
    | cons b back =>
      have hlt : i < argv.length := by omega
      have hstore : ArgArray.store (front ++ b :: back) j (some argv[i]) =
        some ((front ++ [some (some argv[i])]) ++ back) := by
        rw [store_eq (by simp [hj]), List.set_append_right _ _ hj.le, hj, Nat.sub_self, List.set_cons_zero]
        simp
      rw [copyArgs, List.getElem?_eq_getElem hlt]
      simp only [Option.bind_eq_bind, Option.bind_some, hstore]
      rw [ih (by simp [hj]) (Nat.le_of_succ_le_succ hn) (by omega), List.drop_eq_getElem_cons hlt,
        List.map_cons]
      simp only [List.append_assoc, List.cons_append, List.nil_append, Function.comp_apply,
        List.drop_succ_cons, Nat.add_assoc, Nat.add_comm 1 n]

theorem copyArgs_store {β : Type} {argv : List CStr} {n : ℕ} (front back : ArgArray)
    (hn : n + 1 = back.length) (hi : 1 + n = argv.length)
    (f : ArgArray → Option β) : ((copyArgs argv n 1 front.length (front ++ back)).bind fun r =>
      (r.2.store r.1 none).bind f) =
      f (front ++ ((argv.drop 1).map (some ∘ some) ++ [some none])) := by
  rw [copyArgs_eq argv n rfl (by omega) hi]
  obtain ⟨b, hb⟩ : ∃ b, back.drop n = [b] := List.length_eq_one_iff.mp (by rw [List.length_drop]; omega)
  have hlen : (front ++ (argv.drop 1).map (some ∘ some)).length = front.length + n := by
    simp only [List.length_append, List.length_map, List.length_drop]
    omega
  have hstore : ArgArray.store (front ++ ((argv.drop 1).map (some ∘ some) ++ [b])) (front.length + n) none =
      some (front ++ ((argv.drop 1).map (some ∘ some) ++ [some none])) := by
    rw [← List.append_assoc, ← hlen, store_eq (by simp), List.set_append_right _ _ le_rfl, Nat.sub_self,
      List.set_cons_zero,
      List.append_assoc]
  simp only [Option.bind_some, hb, hstore]

theorem store_cons_zero (b : Option (Option CStr)) (args : ArgArray) (p : Option CStr) :
    ArgArray.store (b :: args) 0 p = some (some p :: args) := rfl

theorem store_cons_succ (b : Option (Option CStr)) (args : ArgArray) (i : ℕ) (p : Option CStr) :
    ArgArray.store (b :: args) (i + 1) p = (args.store i p).map (b :: ·) := by
  by_cases h : i < args.length
  · rw [store_eq h, store_eq (Nat.succ_lt_succ h)]
    rfl
  · have h' : ¬ i + 1 < (b :: args).length := fun hn => h (Nat.lt_of_succ_lt_succ hn)
    rw [ArgArray.store, ArgArray.store, if_neg h, if_neg h']
    rfl

theorem shebangArgs_some (path cmd a : CStr) {argv : List CStr} {k : ℕ} (hk : argv.length = k + 1) :
    shebangArgs path (k + 1) argv cmd (some a) =
      some (.exec cmd (k + 3)
        ([cmd, a, path].map (some ∘ some) ++ ((argv.drop 1).map (some ∘ some) ++ [some none]))) := by
  have hcopy := copyArgs_store (n := k) ([cmd, a, path].map (some ∘ some))
    (some none :: List.replicate k none) (by simp)
    (show 1 + k = argv.length by omega) fun args => some (Shebang.exec cmd (k + 3) args)
  simp only [shebangArgs, Option.isSome_some, if_true, List.replicate_succ, store_cons_zero, store_cons_succ,
    Option.bind_eq_bind, Option.bind_some, Option.map_some]
  exact hcopy

theorem shebangArgs_none (path cmd : CStr) {argv : List CStr} {k : ℕ} (hk : argv.length = k + 2) :
    shebangArgs path (k + 2) argv cmd none =
      some (.exec cmd (k + 3)
        ([cmd, path].map (some ∘ some) ++ ((argv.drop 1).map (some ∘ some) ++ [some none]))) := by
  have hcopy := copyArgs_store (n := k + 1) ([cmd, path].map (some ∘ some))
    (some none :: some none :: List.replicate k none) (by simp)
    (show 1 + (k + 1) = argv.length by omega) fun args => some (Shebang.exec cmd (k + 3) args)
  simp only [shebangArgs, Option.isSome_none, Bool.false_eq_true, if_false, List.replicate_succ,
    store_cons_zero, store_cons_succ, Option.bind_eq_bind, Option.bind_some, Option.map_some]
  exact hcopy

/-- With one argument, and none in the line, the array has three slots. -/
theorem shebangArgs_outside (path cmd : CStr) (argv : List CStr) : shebangArgs path 1 argv cmd none =
    none := by
  simp only [shebangArgs, Option.isSome_none, Bool.false_eq_true, if_false, List.replicate_succ,
    List.replicate_zero, store_cons_zero,
    store_cons_succ, Option.bind_eq_bind, Option.bind_some, Option.map_some]
  rfl

/-- The interpreter is called with its argument, the script and the arguments of the script, exactly if
there is one of them. -/
theorem shebang_vector_iff (path : CStr) (argc : ℕ) (argv : List CStr) (l : FirstLine) (rest : List UInt8)
    (hargc : 1 ≤ argc)
    (hargv : argv.length = argc) (hwindow : (l.text ++ rest).length = 100) :
    execShebang path argc argv (l.text ++ rest) = some (.exec l.cmd (l.vector path argv).length
        ((l.vector path argv).map (some ∘ some) ++ [some none])) ↔ l.arg ≠ none ∨ 2 ≤ argc := by
  rw [execShebang_line]
  obtain ⟨cmd, arg, hcmd, harg⟩ := l
  obtain ⟨k, rfl⟩ : ∃ k, argc = k + 1 := ⟨argc - 1, by omega⟩
  cases arg with
  | some a =>
    have hlen : (FirstLine.vector ⟨cmd, some a, hcmd, harg⟩ path argv).length =
      k + 3 := by simp [FirstLine.vector, hargv]
    rw [shebangArgs_some path cmd a hargv, hlen]
    simp [FirstLine.vector]
  | none =>
    cases k with
    | zero =>
      rw [shebangArgs_outside]
      simp
    | succ k =>
      have hlen : (FirstLine.vector ⟨cmd, none, hcmd, harg⟩ path argv).length =
        k + 3 := by simp [FirstLine.vector, hargv]
      rw [shebangArgs_none path cmd hargv, hlen]
      simp [FirstLine.vector]

theorem sh_clean : ∀ b ∈ [(0x2F : UInt8), 0x73, 0x68], b ≠ 0 ∧ b ≠ 0x20 ∧ b ≠ 0x0A := by simp

theorem no_arg_clean (a : CStr) (h : none = some a) : ∀ b ∈ a, b ≠ 0 ∧ b ≠ 0x0A := absurd h (by simp)

def shLine : FirstLine := ⟨[0x2F, 0x73, 0x68], none, sh_clean, no_arg_clean⟩

theorem shebang_vector_two : execShebang [0x73] 2 [[0x73], [0x78]] (shLine.text ++ List.replicate 94 0) =
    some (.exec shLine.cmd (shLine.vector [0x73] [[0x73], [0x78]]).length
      ((shLine.vector [0x73] [[0x73], [0x78]]).map (some ∘ some) ++ [some none])) :=
  (shebang_vector_iff [0x73] 2 [[0x73], [0x78]] shLine (List.replicate 94 0) (by decide) rfl (by decide)).mpr
    (.inr le_rfl)

/-- A script that is called without arguments: the pointer at index 3 is behind the end of the array. -/
theorem shebang_outside : (shLine.text ++ List.replicate 94 0).length = 100 ∧
    execShebang [0x73] 1 [[0x73]] (shLine.text ++ List.replicate 94 0) = none := by
  decide +kernel

end ChiffOS.Elf
