import Mathlib
import ChiffOS.Lib.NameTree
import ChiffOS.Lib.Tokens
import ChiffOS.Vfs.Path

/-! The names of shared memory, `get_node` of `mem/shm.c`, on the bytes of the path. The tokenizer is called
once for each node on the way, whether it still finds a token or not, and a token is copied whatever its
length is. -/

namespace ChiffOS.Mem.ShmNames

open Vfs NameTree

/-! ### The source -/

def shmPathSeparator : UInt8 := 0x2E

def nameSize : ℕ := 256

/-- `_get_node`, below `tnode`, with the node if there is one and the tree behind the call. There is no
result where a null pointer is compared with the name of a child or copied, or where a name is written
behind its field. -/
def getNodeFrom (create : Bool) : (fuel : ℕ) → (shmPath : CStr) → List (NameNode CStr) → (tnode : Option ℕ) →
    Option (Option ℕ × List (NameNode CStr))
  | 0, _, _, _ => none
  | fuel + 1, shmPath, nodes, tnode =>
    match Tokens.next (· == shmPathSeparator) shmPath with
    | none => if create ∨ ∃ n ∈ nodes, n.parent = tnode then none else some (none, nodes)
    | some (pch, save) =>
      match child nodes tnode pch with
      | some k => if save = [] then some (some k, nodes) else getNodeFrom create fuel save nodes (some k)
      | none =>
        if create then
          if pch.length + 1 ≤ nameSize then
            if save = [] then some (some nodes.length, nodes ++ [⟨tnode, pch⟩])
            else getNodeFrom create fuel save (nodes ++ [⟨tnode, pch⟩]) (some nodes.length)
          else none
        else some (none, nodes)

def getNode (create : Bool) (nodes : List (NameNode CStr)) (shmPath : CStr) : Option
    (Option ℕ × List (NameNode CStr)) :=
  getNodeFrom create (shmPath.length + 1) shmPath nodes none

/-! ### One level -/

section

variable {create : Bool} {fuel : ℕ} {path pch save : CStr} {nodes : List (NameNode CStr)} {tnode : Option ℕ}
    {k : ℕ}

theorem getNodeFrom_null (hn : Tokens.next (· == shmPathSeparator) path = none) : getNodeFrom create
    (fuel + 1) path nodes tnode =
    if create ∨ ∃ n ∈ nodes, n.parent = tnode then none else some (none, nodes) := by
  simp only [getNodeFrom, hn]

variable (hn : Tokens.next (· == shmPathSeparator) path = some (pch, save))

include hn

theorem getNodeFrom_found (hk : child nodes tnode pch = some k) : getNodeFrom create
    (fuel + 1) path nodes tnode =
    if save = [] then some (some k, nodes) else getNodeFrom create fuel save nodes (some k) := by
  simp only [getNodeFrom, hn, hk]

theorem getNodeFrom_absent (hk : child nodes tnode pch = none) :
    getNodeFrom false (fuel + 1) path nodes tnode = some (none, nodes) := by
  simp only [getNodeFrom, hn, hk]
  rfl

theorem getNodeFrom_new (hk : child nodes tnode pch = none) (hpch : pch.length < nameSize) :
    getNodeFrom true (fuel + 1) path nodes tnode = if save =
      [] then some (some nodes.length, nodes ++ [⟨tnode, pch⟩])
      else getNodeFrom true fuel save (nodes ++ [⟨tnode, pch⟩]) (some nodes.length) := by
  simp only [getNodeFrom, hn, hk]
  rw [if_pos trivial, if_pos (Nat.succ_le_of_lt hpch)]

theorem getNodeFrom_long (hk : child nodes tnode pch = none) (hpch : ¬ pch.length < nameSize) :
    getNodeFrom true (fuel + 1) path nodes tnode = none := by
  simp only [getNodeFrom, hn, hk]
  rw [if_pos trivial, if_neg fun h => hpch (Nat.lt_of_succ_le h)]

end

/-! ### Paths that are safe -/

def tokens (path : CStr) : List CStr := Tokens.tokens (· == shmPathSeparator) path

/-- The tokenizer is called once more than there are tokens. -/
def Dangling (path : CStr) : Prop := tokens path = [] ∨ [shmPathSeparator, shmPathSeparator] <:+ path

theorem dangling_none {path : CStr} (h : Tokens.next (· == shmPathSeparator) path = none) : Dangling path :=
    .inl (Tokens.tokens_none h)

theorem dangling_some {path pch save : CStr}
    (h : Tokens.next (· == shmPathSeparator) path = some (pch, save)) :
    Dangling path ↔ save ≠ [] ∧ Dangling save := by
  have ht : tokens path ≠ [] := by
    rw [tokens, Tokens.tokens_some h]
    exact List.cons_ne_nil _ _
  rw [Dangling, or_iff_right ht]
  exact Tokens.suffix_some h

theorem tokens_next {path pch save : CStr} (h : Tokens.next (· == shmPathSeparator) path = some (pch, save)) :
    tokens path = pch :: tokens save := Tokens.tokens_some h

theorem tokens_nil : tokens [] = [] := rfl

variable {fuel : ℕ} {path : CStr} {nodes : List (NameNode CStr)} {tnode : Option ℕ}

theorem child_name {pch : CStr} {k : ℕ} (hnames : ∀ n ∈ nodes, n.name.length < nameSize)
    (hk : child nodes tnode pch = some k) :
    pch.length < nameSize := hnames _ (List.mem_of_getElem? (child_some hk))

theorem names_insert {pch : CStr} (hnames : ∀ n ∈ nodes, n.name.length < nameSize)
    (hpch : pch.length < nameSize) :
    ∀ n ∈ nodes ++ [⟨tnode, pch⟩], n.name.length < nameSize := by
  intro n hmem
  rcases List.mem_append.mp hmem with hmem | hmem
  · exact hnames n hmem
  · rw [List.mem_singleton.mp hmem]
    exact hpch

theorem create_isSome_iff (hfuel : path.length < fuel) (hnames : ∀ n ∈ nodes, n.name.length < nameSize) :
    (getNodeFrom true fuel path nodes tnode).isSome ↔ ¬ Dangling path ∧ ∀ t ∈ tokens path,
      t.length < nameSize := by
  induction fuel generalizing path nodes tnode with
  | zero => omega
  | succ fuel ih =>
    cases hn : Tokens.next (· == shmPathSeparator) path with
    | none =>
      rw [getNodeFrom_null hn]
      simp [dangling_none hn]
    | some r =>
      obtain ⟨pch, save⟩ := r
      have hlen := Tokens.next_length hn
      rw [dangling_some hn, tokens_next hn, List.forall_mem_cons]
      cases hk : child nodes tnode pch with
      | some k =>
        have hpch := child_name hnames hk
        rw [getNodeFrom_found hn hk]
        by_cases hsave : save = []
        · simp [hsave, tokens_nil, hpch]
        · rw [if_neg hsave, ih (by omega) hnames]
          simp [hsave, hpch]
      | none =>
        by_cases hpch : pch.length < nameSize
        · rw [getNodeFrom_new hn hk hpch]
          by_cases hsave : save = []
          · simp [hsave, tokens_nil, hpch]
          · rw [if_neg hsave, ih (by omega) (names_insert hnames hpch)]
            simp [hsave, hpch]
        · rw [getNodeFrom_long hn hk hpch]
          simp [hpch]

/-- Without `create`, the walk ends at the first name that is not there. -/
theorem find_isSome_iff (hfuel : path.length < fuel) :
    (getNodeFrom false fuel path nodes tnode).isSome ↔
      (Dangling path → ∀ p, walk nodes tnode (tokens path) = some p → ∀ n ∈ nodes, n.parent ≠ p) := by
  induction fuel generalizing path nodes tnode with
  | zero => omega
  | succ fuel ih =>
    cases hn : Tokens.next (· == shmPathSeparator) path with
    | none =>
      have ht : tokens path = [] := Tokens.tokens_none hn
      rw [getNodeFrom_null hn]
      simp [dangling_none hn, ht, walk]
    | some r =>
      obtain ⟨pch, save⟩ := r
      have hlen := Tokens.next_length hn
      rw [dangling_some hn, tokens_next hn, walk]
      cases hk : child nodes tnode pch with
      | none =>
        rw [getNodeFrom_absent hn hk]
        simp
      | some k =>
        rw [getNodeFrom_found hn hk]
        by_cases hsave : save = []
        · simp [hsave]
        · rw [if_neg hsave, ih (by omega)]
          simp [hsave]

/-- Whatever string it is: where a name is created, the path must have a token, must not end in two
separators, and no token may be longer than the field; where it is looked up, the walk must not end above a
child with the tokenizer called once more. -/
theorem get_node_safe_iff (nodes : List (NameNode CStr)) (hnames : ∀ n ∈ nodes, n.name.length < nameSize)
    (path : CStr) :
    ((getNode true nodes path).isSome ↔ ¬ Dangling path ∧ ∀ t ∈ tokens path, t.length < nameSize) ∧
    ((getNode false nodes path).isSome ↔
      (Dangling path → ∀ p, walk nodes none (tokens path) = some p → ∀ n ∈ nodes, n.parent ≠ p)) :=
  ⟨create_isSome_iff (Nat.lt_succ_self _) hnames, find_isSome_iff (Nat.lt_succ_self _)⟩

/-- A name below another one, in an empty tree. -/
theorem get_node_safe_nested : (getNode true [] [0x61, 0x2E, 0x62]).isSome :=
  (get_node_safe_iff [] (by simp) [0x61, 0x2E, 0x62]).1.mpr
    ⟨by rintro (h | h) <;> revert h <;> decide +kernel, by decide +kernel⟩

/-- The empty string is copied from a null pointer, and two separators behind a name that is there are too. -/
theorem get_node_unsafe : getNode true [] [] = none ∧ getNode true [⟨none, [0x61]⟩] [0x61, 0x2E, 0x2E] =
    none ∧
    getNode true [] (List.replicate 256 0x61) = none := by
  decide +kernel

/-! ### One node for a list of tokens -/

/-- A path as it is meant: tokens that have room in a name, with a separator between each two. -/
structure WellFormed (ts : List CStr) : Prop where
  ne_nil : ts ≠ []
  words : ∀ t ∈ ts, t ≠ [] ∧ shmPathSeparator ∉ t
  room : ∀ t ∈ ts, t.length < nameSize

def pathOf (ts : List CStr) : CStr := [shmPathSeparator].intercalate ts

theorem WellFormed.tokens {ts : List CStr} (h : WellFormed ts) : tokens (pathOf ts) = ts :=
    Tokens.tokens_intercalate h.words

theorem WellFormed.not_dangling {ts : List CStr} (h : WellFormed ts) : ¬ Dangling (pathOf ts) := by
  rintro (hnil | hs)
  · rw [h.tokens] at hnil
    exact h.ne_nil hnil
  · exact Tokens.not_suffix_intercalate h.ne_nil h.words hs

/-- What a call with `create` leaves: all that was there is there, and what is new is on the way to its
node. -/
structure Grown (nodes nodes' : List (NameNode CStr)) (ts : List CStr) : Prop where
  closed : Closed nodes'
  keeps : ∀ us p, walk nodes none us = some p → walk nodes' none us = some p
  only : ∀ us, (walk nodes' none us).isSome → (walk nodes none us).isSome ∨ us <+: ts

theorem Grown.refl {nodes : List (NameNode CStr)} (hc : Closed nodes) (ts : List CStr) :
    Grown nodes nodes ts :=
  ⟨hc, fun _ _ h => h, fun _ h => .inl h⟩

theorem Grown.insert (hc : Closed nodes) {ts : List CStr} {pch : CStr} (hw : walk nodes none ts = some tnode)
    (hk : child nodes tnode pch = none) {us : List CStr} (hus : ts ++ [pch] <+: us) :
      Grown nodes (nodes ++ [⟨tnode, pch⟩]) us := by
  have hinsert := walk_insert hc hw hk
  refine ⟨hc.insert (fun k hk => walk_lt (hk ▸ hw)) pch, fun vs p hp => ?_, fun vs hvs => ?_⟩
  · rw [hinsert, if_neg, hp]
    rintro rfl
    rw [walk_concat, hw, Option.bind_some, hk] at hp
    cases hp
  · rw [hinsert] at hvs
    by_cases heq : vs = ts ++ [pch]
    · exact .inr (heq ▸ hus)
    · rw [if_neg heq] at hvs
      exact .inl hvs

theorem Grown.trans {nodes nodes₁ nodes₂ : List (NameNode CStr)} {ts : List CStr} (h1 : Grown nodes nodes₁ ts)
    (h2 : Grown nodes₁ nodes₂ ts) :
    Grown nodes nodes₂ ts := by
  refine ⟨h2.closed, fun us p hp => h2.keeps us p (h1.keeps us p hp), fun us hus => ?_⟩
  rcases h2.only us hus with hus | hus
  · exact h1.only us hus
  · exact .inr hus

theorem create_walk (hfuel : path.length < fuel) (hc : Closed nodes) {ts : List CStr}
    (hw : walk nodes none ts = some tnode)
    (hd : ¬ Dangling path) (hroom : ∀ t ∈ tokens path, t.length < nameSize) :
    ∃ k nodes', getNodeFrom true fuel path nodes tnode = some (some k, nodes') ∧
      walk nodes' none (ts ++ tokens path) = some (some k) ∧ Grown nodes nodes' (ts ++ tokens path) := by
  induction fuel generalizing path nodes tnode ts with
  | zero => omega
  | succ fuel ih =>
    cases hn : Tokens.next (· == shmPathSeparator) path with
    | none => exact absurd (dangling_none hn) hd
    | some r =>
      obtain ⟨pch, save⟩ := r
      have hlen := Tokens.next_length hn
      rw [tokens_next hn, List.forall_mem_cons] at hroom
      rw [dangling_some hn] at hd
      have hassoc : ts ++ tokens path =
        (ts ++ [pch]) ++ tokens save := by rw [tokens_next hn, List.append_assoc]; rfl
      rw [hassoc]
      -- the child with the first token, which is there or is made
      have hchild : ∃ k nodes₁, walk nodes₁ none (ts ++ [pch]) = some (some k) ∧
        Grown nodes nodes₁ ((ts ++ [pch]) ++ tokens save) ∧
          getNodeFrom true (fuel + 1) path nodes tnode =
            if save = [] then some (some k, nodes₁) else getNodeFrom true fuel save nodes₁ (some k) := by
        cases hk : child nodes tnode pch with
        | some k =>
          refine ⟨k, nodes, ?_, .refl hc _, getNodeFrom_found hn hk⟩
          rw [walk_concat, hw, Option.bind_some, hk]
          rfl
        | none =>
          refine ⟨nodes.length, _, ?_, .insert hc hw hk (List.prefix_append _ _),
            getNodeFrom_new hn hk hroom.1⟩
          rw [walk_insert hc hw hk, if_pos rfl]
      obtain ⟨k, nodes₁, hwalk, hgrown, heq⟩ := hchild
      rw [heq]
      by_cases hsave : save = []
      · subst hsave
        refine ⟨k, nodes₁, if_pos rfl, ?_, hgrown⟩
        rw [tokens_nil, List.append_nil]
        exact hwalk
      · rw [if_neg hsave]
        obtain ⟨k', nodes', hget, hwalk', hgrown'⟩ :=
          ih (by omega) hgrown.closed hwalk (fun h => hd ⟨hsave, h⟩) hroom.2
        exact ⟨k', nodes', hget, hwalk', hgrown.trans hgrown'⟩

/-- Without `create`, the call gives the node at the end of the walk. -/
theorem find_walk (hfuel : path.length < fuel) (hd : ¬ Dangling path) :
    getNodeFrom false fuel path nodes tnode = some ((walk nodes tnode (tokens path)).join, nodes) := by
  induction fuel generalizing path tnode with
  | zero => omega
  | succ fuel ih =>
    cases hn : Tokens.next (· == shmPathSeparator) path with
    | none => exact absurd (dangling_none hn) hd
    | some r =>
      obtain ⟨pch, save⟩ := r
      have hlen := Tokens.next_length hn
      rw [dangling_some hn] at hd
      rw [tokens_next hn, walk]
      cases hk : child nodes tnode pch with
      | none =>
        rw [getNodeFrom_absent hn hk]
        rfl
      | some k =>
        rw [getNodeFrom_found hn hk, Option.bind_some]
        by_cases hsave : save = []
        · rw [if_pos hsave, hsave]
          rfl
        · rw [if_neg hsave, ih (by omega) fun h => hd ⟨hsave, h⟩]

/-- The nodes that calls with `create` give, one after another. -/
def creates : List (NameNode CStr) → List CStr → Option (List ℕ × List (NameNode CStr))
  | nodes, [] => some ([], nodes)
  | nodes, path :: paths =>
    match getNode true nodes path with
    | some (some k, nodes) => (creates nodes paths).map fun r => (k :: r.1, r.2)
    | _ => none

theorem creates_walk (calls : List (List CStr)) (h : ∀ ts ∈ calls, WellFormed ts) (hc : Closed nodes) :
    ∃ ks nodes', creates nodes (calls.map pathOf) = some (ks, nodes') ∧
      List.Forall₂ (fun ts k => walk nodes' none ts = some (some k)) calls ks ∧
      (∀ us p, walk nodes none us = some p → walk nodes' none us = some p) ∧
      ∀ us, (walk nodes' none us).isSome → (walk nodes none us).isSome ∨ ∃ ts ∈ calls, us <+: ts := by
  induction calls generalizing nodes with
  | nil => exact ⟨[], nodes, rfl, .nil, fun _ _ h => h, fun _ h => .inl h⟩
  | cons ts calls ih =>
    have hts := h ts List.mem_cons_self
    have htok := hts.tokens
    obtain ⟨k, nodes₁, hget, hwalk, hgrown⟩ := @create_walk ((pathOf ts).length + 1) (pathOf ts) nodes none
      (Nat.lt_succ_self _) hc [] rfl
      hts.not_dangling (by rw [htok]; exact hts.room)
    rw [htok, List.nil_append] at hwalk hgrown
    obtain ⟨ks, nodes', hcreates, hall, hkeeps, honly⟩ :=
      ih (fun us hus => h us (List.mem_cons_of_mem _ hus)) hgrown.closed
    refine ⟨k :: ks, nodes', ?_, .cons (hkeeps _ _ hwalk) hall, fun us p hp =>
      hkeeps us p (hgrown.keeps us p hp), fun us hus => ?_⟩
    · simp only [List.map_cons, creates, getNode, hget, hcreates, Option.map_some]
    · rcases honly us hus with hus | ⟨vs, hvs, hpre⟩
      · rcases hgrown.only us hus with hus | hpre
        · exact .inl hus
        · exact .inr ⟨ts, List.mem_cons_self, hpre⟩
      · exact .inr ⟨vs, List.mem_cons_of_mem _ hvs, hpre⟩

/-- The tree after calls that gave the nodes `ks`: each list leads to its node, and what is found is the
beginning of a list. -/
structure Named (calls : List (List CStr)) (ks : List ℕ) (nodes : List (NameNode CStr)) : Prop where
  length : ks.length = calls.length
  node : ∀ (i k : ℕ) (ts : List CStr), calls[i]? = some ts → ks[i]? = some k → walk nodes none ts =
    some (some k)
  only : ∀ us, us ≠ [] → (walk nodes none us).isSome → ∃ ts ∈ calls, us <+: ts

theorem creates_named (calls : List (List CStr)) (h : ∀ ts ∈ calls, WellFormed ts) :
    ∃ ks nodes, creates [] (calls.map pathOf) = some (ks, nodes) ∧ Named calls ks nodes := by
  obtain ⟨ks, nodes, hcreates, hall, -, honly⟩ := @creates_walk [] calls h fun n hn =>
    absurd hn List.not_mem_nil
  refine ⟨ks, nodes, hcreates, hall.length_eq.symm, fun i k ts hts hk => ?_, fun us hus hsome => ?_⟩
  · obtain ⟨hi, rfl⟩ := List.getElem?_eq_some_iff.mp hts
    obtain ⟨hj, rfl⟩ := List.getElem?_eq_some_iff.mp hk
    exact hall.get hi hj
  · rcases honly us hsome with hroot | hpre
    · -- in the empty tree only the root is found
      cases us with
      | nil => exact absurd rfl hus
      | cons t us => cases hroot
    · exact hpre

section Named

variable {calls : List (List CStr)} {ks : List ℕ} (h : Named calls ks nodes)

include h

theorem Named.same {i j k l : ℕ} {ts us : List CStr} (hts : calls[i]? = some ts) (hus : calls[j]? = some us)
    (hk : ks[i]? = some k)
    (hl : ks[j]? = some l) : k = l ↔ ts = us := by
  have h1 := h.node i k ts hts hk
  have h2 := h.node j l us hus hl
  constructor
  · rintro rfl
    exact walk_inj h1 h2
  · rintro rfl
    rw [h1] at h2
    exact Option.some.inj (Option.some.inj h2)

theorem Named.join_eq_some_iff {i k : ℕ} {ts us : List CStr} (hts : calls[i]? = some ts)
    (hk : ks[i]? = some k) :
    (walk nodes none us).join = some k ↔ us = ts := by
  have h1 := h.node i k ts hts hk
  rw [Option.join_eq_some_iff]
  constructor
  · intro h2
    exact walk_inj h2 h1
  · rintro rfl
    exact h1

theorem Named.join_isSome_iff {us : List CStr} (hus : us ≠ []) : (walk nodes none us).join.isSome ↔
    ∃ ts ∈ calls, us <+: ts := by
  rw [walk_join_isSome hus]
  constructor
  · exact h.only us hus
  · rintro ⟨ts, hts, hpre⟩
    obtain ⟨i, hi, rfl⟩ := List.getElem_of_mem hts
    refine walk_of_prefix hpre ?_
    rw [h.node i _ _ (List.getElem?_eq_getElem hi) (List.getElem?_eq_getElem (h.length ▸ hi))]
    rfl

end Named

/-- Calls with `create` give the same node exactly for the same tokens. Afterwards a call without `create`
finds each of these nodes by its own tokens only, and finds a node exactly for the tokens of a call or the
beginning of them. -/
theorem shm_names (calls : List (List CStr)) (h : ∀ ts ∈ calls, WellFormed ts) :
    ∃ ks nodes, creates [] (calls.map pathOf) = some (ks, nodes) ∧ ks.length = calls.length ∧
      (∀ (i j k l : ℕ) (ts us : List CStr), calls[i]? = some ts → calls[j]? = some us → ks[i]? = some k →
        ks[j]? = some l → (k = l ↔ ts = us)) ∧
      ∀ us, WellFormed us → ∃ r, getNode false nodes (pathOf us) = some (r, nodes) ∧
        (∀ (i k : ℕ) (ts : List CStr), calls[i]? = some ts → ks[i]? = some k → (r = some k ↔ us = ts)) ∧
        (r.isSome ↔ ∃ ts ∈ calls, us <+: ts) := by
  obtain ⟨ks, nodes, hcreates, hnamed⟩ := creates_named calls h
  refine ⟨ks, nodes, hcreates, hnamed.length, ?_, ?_⟩
  · intro i j k l ts us hts hus hk hl
    exact hnamed.same hts hus hk hl
  · intro us hus
    have hfind := @find_walk ((pathOf us).length + 1) (pathOf us) nodes none (Nat.lt_succ_self _)
      hus.not_dangling
    rw [hus.tokens] at hfind
    refine ⟨_, hfind, ?_, hnamed.join_isSome_iff hus.ne_nil⟩
    intro i k ts hts hk
    exact hnamed.join_eq_some_iff hts hk

theorem shm_names_nested : ∃ ks nodes, creates [] [pathOf [[0x61], [0x62]], pathOf [[0x61], [0x63]]] = some
    (ks, nodes) ∧
    ks.length = 2 ∧ ∃ r, getNode false nodes (pathOf [[0x61]]) = some (r, nodes) ∧ r.isSome := by
  have hb : WellFormed [[0x61], [0x62]] := ⟨by simp, by simp [shmPathSeparator], by simp [nameSize]⟩
  have hc : WellFormed [[0x61], [0x63]] := ⟨by simp, by simp [shmPathSeparator], by simp [nameSize]⟩
  obtain ⟨ks, nodes, hcreates, hlen, -, hfind⟩ :=
    shm_names [[[0x61], [0x62]], [[0x61], [0x63]]] (by simpa using ⟨hb, hc⟩)
  obtain ⟨r, hr, -, hsome⟩ := hfind [[0x61]] ⟨by simp, by simp [shmPathSeparator], by simp [nameSize]⟩
  exact ⟨ks, nodes, hcreates, hlen, r, hr,
    hsome.mpr ⟨_, List.mem_cons_self, List.prefix_append [[0x61]] [[0x62]]⟩⟩

end ChiffOS.Mem.ShmNames
