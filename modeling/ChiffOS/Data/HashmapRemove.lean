import ChiffOS.Data.Hashmap

/-! `hashmap_remove`. The first entry of a chain is looked at on its own; the loop over the others takes the
second one for granted. The copy of a removed key is freed, so that its memory may be written by others. -/

namespace ChiffOS.Data

open Option

variable {V : Type}

def removeLoop (kind : KeyKind) (m : Buf) (key : ℕ) : List (Entry V) → Option
    (Option (Option V × List (Entry V)))
  | [] => none
  | x :: xs => do
    if ← hashComp m x.key key kind then return some (x.value, xs)
    else if xs.isEmpty then return none
    else return (← removeLoop kind m key xs).map fun (out, xs) => (out, x :: xs)

def removeChain (kind : KeyKind) (m : Buf) (key : ℕ) : List (Entry V) → Option
    (Option (Option V × List (Entry V)))
  | [] => some none
  | x :: xs => do
    if ← hashComp m x.key key kind then return some (x.value, xs)
    else return (← removeLoop kind m key xs).map fun (out, xs) => (out, x :: xs)

/-- Returns the value of the key; `none` stands for the use of a null entry, or the division by a size of 0.
-/
def hashmapRemove (s : Store V) (key : ℕ) : Option (Option V × Store V) := do
  if s.map.size = 0 then none
  let hash ← s.bucket key
  match ← removeChain s.map.kind s.mem key (s.map.entries hash) with
  | some (out, xs) =>
    return (out, { s with map := { s.map with entries := Function.update s.map.entries hash xs } })
  | none => return (none, s)

/-! ### Runs -/

/-- The calls that change a map, and the writes of others to memory. -/
inductive EditOp (V : Type) where
  | poke (addr : ℕ) (c : UInt8)
  | set (p : ℕ) (value : Option V) (dst : ℕ)
  | remove (p : ℕ)

def editStep (s : Store V) : EditOp V → Option (Store V)
  | .poke addr c => some { s with mem := Function.update s.mem addr c }
  | .set p value dst => (hashmapSet s p value dst).map Prod.snd
  | .remove p => (hashmapRemove s p).map Prod.snd

def Store.entry (s : Store V) (key : Key) : Option (Entry V) :=
  (s.map.entries (key.hash.toNat % s.map.size)).find? fun x => keyOf s.mem x.key s.map.kind = some key

/-- The address belongs to the copy of a key of the map. -/
def Store.Owned (s : Store V) (addr : ℕ) : Prop :=
  ∃ key e, s.entry key = some e ∧ ∃ c ∈ key.area e.key, c.1 ≤ addr ∧ addr < c.1 + c.2

/-- Keys are strings that end, only the map writes to its copies, and the memory for a new copy is free. -/
def Permitted (s : Store V) : EditOp V → Prop
  | .poke addr _ => ¬ s.Owned addr
  | .set p _ dst => ∃ key, keyOf s.mem p s.map.kind = some key ∧ (s.entry key = none →
      ∀ c ∈ key.area dst, ∀ i < c.2, ¬ s.Owned (c.1 + i) ∧ (c.1 + i < p ∨ p + c.2 ≤ c.1 + i))
  | .remove p => ∃ key, keyOf s.mem p s.map.kind = some key

/-! ### Chains -/

structure Keyed (kind : KeyKind) (m : Buf) (x : Entry V) (kv : Key × Entry V) : Prop where
  entry : kv.2 = x
  key : keyOf m x.key kind = some kv.1

variable {kind : KeyKind} {m : Buf} {p : ℕ} {key : Key} {xs : List (Entry V)} {kvs : List (Key × Entry V)}

theorem setChain_keyed (h : List.Forall₂ (Keyed kind m) xs kvs) (hp : keyOf m p kind = some key)
    (value : Option V) :
    (Buckets.find key kvs = none ∧ setChain kind m p value xs = some none) ∨
      ∃ e xs', Buckets.find key kvs = some e ∧ setChain kind m p value xs = some (some (e.value, xs')) ∧
        List.Forall₂ (Keyed kind m) xs' (Buckets.put key { e with value := value } kvs) := by
  induction h with
  | nil => exact .inl ⟨rfl, rfl⟩
  | @cons x kv xs kvs hx hxs ih =>
    obtain ⟨k, e⟩ := kv
    obtain rfl : e = x := hx.entry
    have hc := hashComp_key hx.key hp
    by_cases hk : k = key
    · refine .inr ⟨e, { e with value := value } :: xs, ?_, ?_, ?_⟩
      · rw [Buckets.find, if_pos hk]
      · simp [setChain, hc, hk]
      · rw [Buckets.put, if_pos hk]
        exact .cons ⟨rfl, hx.key⟩ hxs
    · rw [Buckets.find, if_neg hk]
      rcases ih with ⟨hf, hs⟩ | ⟨e', xs', hf, hs, hrest⟩
      · exact .inl ⟨hf, by simp [setChain, hc, hk, hs]⟩
      · refine .inr ⟨e', e :: xs', hf, by simp [setChain, hc, hk, hs], ?_⟩
        rw [Buckets.put, if_neg hk]
        exact .cons hx hrest

theorem removeLoop_keyed (h : List.Forall₂ (Keyed kind m) xs kvs) (hp : keyOf m p kind = some key)
    (hne : xs ≠ []) :
    (Buckets.find key kvs = none ∧ removeLoop kind m p xs = some none) ∨
      ∃ e xs', Buckets.find key kvs = some e ∧ removeLoop kind m p xs = some (some (e.value, xs')) ∧
        List.Forall₂ (Keyed kind m) xs' (Buckets.del key kvs) := by
  induction h with
  | nil => exact absurd rfl hne
  | @cons x kv xs kvs hx hxs ih =>
    obtain ⟨k, e⟩ := kv
    obtain rfl : e = x := hx.entry
    have hc := hashComp_key hx.key hp
    by_cases hk : k = key
    · refine .inr ⟨e, xs, ?_, by simp [removeLoop, hc, hk], ?_⟩
      · rw [Buckets.find, if_pos hk]
      · rw [Buckets.del, if_pos hk]
        exact hxs
    · rw [Buckets.find, if_neg hk, Buckets.del, if_neg hk]
      cases hxs with
      | nil => exact .inl ⟨rfl, by simp [removeLoop, hc, hk]⟩
      | cons hy hys =>
        rcases ih (List.cons_ne_nil _ _) with ⟨hf, hs⟩ | ⟨e', xs', hf, hs, hrest⟩
        · exact .inl ⟨hf, by simp [removeLoop, hc, hk] at hs ⊢; simp [hs]⟩
        · exact .inr ⟨e', e :: xs', hf, by simp [removeLoop, hc, hk] at hs ⊢; simp [hs], .cons hx hrest⟩

/-- The search comes to an end unless the first entry is the only one and has another key. -/
theorem removeChain_keyed (h : List.Forall₂ (Keyed kind m) xs kvs) (hp : keyOf m p kind = some key)
    (hlone : ¬ ∃ x, xs = [x] ∧ keyOf m x.key kind ≠ some key) :
    (Buckets.find key kvs = none ∧ removeChain kind m p xs = some none) ∨
      ∃ e xs', Buckets.find key kvs = some e ∧ removeChain kind m p xs = some (some (e.value, xs')) ∧
        List.Forall₂ (Keyed kind m) xs' (Buckets.del key kvs) := by
  cases h with
  | nil => exact .inl ⟨rfl, rfl⟩
  | @cons x kv xs kvs hx hxs =>
    obtain ⟨k, e⟩ := kv
    obtain rfl : e = x := hx.entry
    have hc := hashComp_key hx.key hp
    by_cases hk : k = key
    · refine .inr ⟨e, xs, ?_, by simp [removeChain, hc, hk], ?_⟩
      · rw [Buckets.find, if_pos hk]
      · rw [Buckets.del, if_pos hk]
        exact hxs
    · rw [Buckets.find, if_neg hk, Buckets.del, if_neg hk]
      have hne : xs ≠ [] := by
        intro h0
        exact hlone ⟨e, by rw [h0], fun hsame => hk (some.inj (hx.key.symm.trans hsame))⟩
      rcases removeLoop_keyed hxs hp hne with ⟨hf, hs⟩ | ⟨e', xs', hf, hs, hrest⟩
      · exact .inl ⟨hf, by simp [removeChain, hc, hk, hs]⟩
      · exact .inr ⟨e', e :: xs', hf, by simp [removeChain, hc, hk, hs], .cons hx hrest⟩

theorem removeChain_lone {x : Entry V} {key' : Key} (hp : keyOf m p kind = some key)
    (hx : keyOf m x.key kind = some key')
    (hne : key' ≠ key) : removeChain kind m p [x] = none := by
  simp [removeChain, hashComp_key hx hp, hne, removeLoop]

theorem find_keyed (h : List.Forall₂ (Keyed kind m) xs kvs) (key : Key) :
    xs.find? (fun x => keyOf m x.key kind = some key) = Buckets.find key kvs := by
  induction h with
  | nil => rfl
  | @cons x kv xs kvs hx hxs ih =>
    obtain ⟨k, e⟩ := kv
    obtain rfl : e = x := hx.entry
    by_cases hk : k = key
    · simp [Buckets.find, hk, hx.key]
    · simp [Buckets.find, hk, hx.key, ih]

/-! ### States -/

/-- What every state of a map keeps: keys are in their buckets, each once. -/
structure Tidy (kind : KeyKind) (size : ℕ) (s : Store V) : Prop where
  kind_eq : s.map.kind = kind
  size_eq : s.map.size = size
  table : ∃ t, Buckets.Table (fun key : Key => key.hash.toNat % size) t s.entry ∧
    ∀ i, List.Forall₂ (Keyed kind s.mem) (s.map.entries i) (t i)

variable {size : ℕ} {s : Store V}

theorem tidy_of_table {entries : ℕ → List (Entry V)} {t : ℕ → List (Key × Entry V)}
    {f : Key → Option (Entry V)}
    (ht : Buckets.Table (fun key : Key => key.hash.toNat % size) t f)
    (hall : ∀ i, List.Forall₂ (Keyed kind m) (entries i) (t i)) :
    Tidy kind size ⟨m, kind, size, entries⟩ ∧ Store.entry ⟨m, kind, size, entries⟩ = f := by
  have he : Store.entry ⟨m, kind, size, entries⟩ = f := by
    funext key
    rw [Store.entry, find_keyed (hall _) key, ht.find key]
  exact ⟨⟨rfl, rfl, t, by rw [he]; exact ht, hall⟩, he⟩

theorem forall₂_imp_right {α β : Type} {R S : α → β → Prop} {xs : List α} {ys : List β}
    (h : List.Forall₂ R xs ys)
    (hRS : ∀ x, ∀ y ∈ ys, R x y → S x y) : List.Forall₂ S xs ys := by
  induction h with
  | nil => exact .nil
  | cons hx _ ih =>
    exact .cons (hRS _ _ List.mem_cons_self hx) (ih fun x y hy => hRS x y (List.mem_cons_of_mem _ hy))

namespace Tidy

theorem bucket (h : Tidy kind size s) (hkey : keyOf s.mem p kind = some key) : s.bucket p =
    some (key.hash.toNat % size) := by
  rw [Store.bucket, h.kind_eq, hashFunc_key hkey, h.size_eq, map_some]

theorem keep {m' : Buf} (hm : ∀ addr, s.Owned addr → m' addr = s.mem addr) {t : ℕ → List (Key × Entry V)}
    (ht : Buckets.Table (fun key : Key => key.hash.toNat % size) t s.entry)
    (hall : ∀ i, List.Forall₂ (Keyed kind s.mem) (s.map.entries i) (t i)) (i : ℕ) :
    List.Forall₂ (Keyed kind m') (s.map.entries i) (t i) := by
  apply forall₂_imp_right (hall i)
  intro x kv hkv hx
  have hentry : s.entry kv.1 = some x := by
    rw [← ht.find, ht.home i kv hkv, ← hx.entry]
    exact (Buckets.find_eq_some (ht.nodup i)).mpr hkv
  refine ⟨hx.entry, keyOf_keep hx.key fun c hc j hj => hm _ ⟨kv.1, x, hentry, c, hc, ?_, ?_⟩⟩ <;> omega

theorem poke (h : Tidy kind size s) {addr : ℕ} (hun : ¬ s.Owned addr) (c : UInt8) :
    Tidy kind size { s with mem := Function.update s.mem addr c } := by
  obtain ⟨t, ht, hall⟩ := h.table
  have hmem : ∀ addr', s.Owned addr' → Function.update s.mem addr c addr' = s.mem addr' := by
    intro addr' hown
    apply Function.update_of_ne
    intro he
    exact hun (he ▸ hown)
  obtain ⟨m, k, z, entries⟩ := s
  obtain rfl := h.kind_eq
  obtain rfl := h.size_eq
  exact (tidy_of_table ht (keep hmem ht hall)).1

theorem replace (h : Tidy kind size s) (hkey : keyOf s.mem p kind = some key) {e : Entry V}
    (he : s.entry key = some e)
    (value : Option V) (dst : ℕ) : ∃ s', hashmapSet s p value dst = some (e.value, s') ∧
      Tidy kind size s' := by
  obtain ⟨t, ht, hall⟩ := h.table
  have hfind := ht.find key
  rw [he] at hfind
  rcases setChain_keyed (hall (key.hash.toNat % size)) hkey value with ⟨hnone, -⟩ | ⟨e', xs', hsome, hset,
    hxs⟩
  · rw [hfind] at hnone
    cases hnone
  · rw [hfind] at hsome
    obtain rfl := some.inj hsome
    obtain ⟨m, k, z, entries⟩ := s
    obtain rfl := h.kind_eq
    obtain rfl := h.size_eq
    refine ⟨_, ?_, (tidy_of_table (ht.put key _) (forall₂_update hall hxs)).1⟩
    simp only [hashmapSet, h.bucket hkey, bind_eq_bind, bind_some, hset, pure_def]

theorem add (h : Tidy kind size s) (hkey : keyOf s.mem p kind = some key) (hnew : s.entry key = none)
    {dst : ℕ}
    (hroom : ∀ c ∈ key.area dst, ∀ i < c.2, ¬ s.Owned (c.1 + i)) (value : Option V) :
    ∃ s', hashmapSet s p value dst = some (none, s') ∧ Tidy kind size s' := by
  obtain ⟨t, ht, hall⟩ := h.table
  have hfind := ht.find key
  rw [hnew] at hfind
  rcases setChain_keyed (hall (key.hash.toNat % size)) hkey value with ⟨-, hset⟩ | ⟨e', xs', hsome, -⟩
  · obtain ⟨p', hdup, hkey', -⟩ := hashKeyDup_key hkey dst
    have hmem : ∀ addr, s.Owned addr → key.copied s.mem dst addr = s.mem addr := by
      intro addr hown
      apply copied_other
      intro c hc
      by_contra hin
      have := hroom c hc (addr - c.1) (by omega)
      rw [show c.1 + (addr - c.1) = addr by omega] at this
      exact this hown
    have hput := ht.put key (⟨p', value⟩ : Entry V)
    rw [Buckets.put_absent hfind] at hput
    have hkeep := keep hmem ht hall
    have hlast : List.Forall₂ (Keyed kind (key.copied s.mem dst)) [⟨p', value⟩]
      [(key, (⟨p', value⟩ : Entry V))] :=
      .cons ⟨rfl, hkey'⟩ .nil
    obtain ⟨m, k, z, entries⟩ := s
    obtain rfl := h.kind_eq
    obtain rfl := h.size_eq
    refine ⟨_, ?_, (tidy_of_table hput (forall₂_update hkeep (List.rel_append (hkeep _) hlast))).1⟩
    simp only [hashmapSet, h.bucket hkey, bind_eq_bind, bind_some, hset, hdup, pure_def]
  · rw [hfind] at hsome
    cases hsome

end Tidy

/-! ### Removal -/

def Store.LoneOther (s : Store V) (key : Key) : Prop :=
  ∃ x, s.map.entries (key.hash.toNat % s.map.size) = [x] ∧ keyOf s.mem x.key s.map.kind ≠ some key

namespace Tidy

theorem remove (h : Tidy kind size s) (hsize : 1 ≤ size) (hkey : keyOf s.mem p kind = some key)
    (hlone : ¬ s.LoneOther key) :
    ∃ s', hashmapRemove s p = some ((s.entry key).bind Entry.value, s') ∧ Tidy kind size s' ∧
      s'.entry = Function.update s.entry key none ∧ (s.entry key = none → s' = s) := by
  obtain ⟨t, ht, hall⟩ := h.table
  have hbucket := h.bucket hkey
  have hfind := ht.find key
  obtain ⟨m, k, z, entries⟩ := s
  obtain rfl := h.kind_eq
  obtain rfl := h.size_eq
  have hz : z ≠ 0 := Nat.ne_of_gt hsize
  rcases removeChain_keyed (hall _) hkey hlone with ⟨hnone, hrun⟩ | ⟨e, xs', hsome, hrun, hxs⟩
  · rw [hnone] at hfind
    refine ⟨⟨m, k, z, entries⟩, ?_, h, ?_, fun _ => rfl⟩
    · simp only [hashmapRemove, hz, if_false, hbucket, bind_eq_bind, bind_some, hrun, pure_def, ← hfind]
      rfl
    · rw [hfind, Function.update_eq_self]
  · rw [hsome] at hfind
    obtain ⟨htidy, hentry⟩ := tidy_of_table (ht.del key) (forall₂_update hall hxs)
    refine ⟨_, ?_, htidy, hentry, fun h0 => ?_⟩
    · simp only [hashmapRemove, hz, if_false, hbucket, bind_eq_bind, bind_some, hrun, pure_def, ← hfind]
    · rw [← hfind] at h0
      cases h0

/-- The loop takes the entry behind the last one. -/
theorem remove_lone (h : Tidy kind size s) (hkey : keyOf s.mem p kind = some key) (hlone : s.LoneOther key) :
    hashmapRemove s p = none := by
  obtain ⟨t, -, hall⟩ := h.table
  have hbucket := h.bucket hkey
  obtain ⟨m, k, z, entries⟩ := s
  obtain rfl := h.kind_eq
  obtain rfl := h.size_eq
  obtain ⟨x, hx, hne⟩ := hlone
  dsimp only at hx hne
  obtain ⟨key', hkey'⟩ : ∃ key', keyOf m x.key k = some key' := by
    have hchain := hall (key.hash.toNat % z)
    dsimp only at hchain
    rw [hx] at hchain
    obtain ⟨kv, _, hk, _⟩ := List.forall₂_cons_left_iff.mp hchain
    exact ⟨_, hk.key⟩
  have hrun := removeChain_lone hkey hkey' fun he => hne (he ▸ hkey')
  by_cases hz : z = 0
  · simp [hashmapRemove, hz]
  · simp only [hashmapRemove, hz, if_false, hbucket, bind_eq_bind, bind_some, hx]
    dsimp only at hrun
    rw [hrun]
    rfl

theorem remove_zero (h : s.map.size = 0) : hashmapRemove s p = none := by
  simp [hashmapRemove, h]

/-- Every call that is made as it should be, and returns, keeps the map in order. -/
theorem step (s : Store V) (op : EditOp V) (s' : Store V) (h : Tidy kind size s) (hop : Permitted s op)
    (hs : editStep s op = some s') : Tidy kind size s' := by
  cases op with
  | poke addr c =>
    obtain rfl := some.inj hs
    exact h.poke hop c
  | set p value dst =>
    obtain ⟨key, hkey, hroom⟩ := hop
    rw [h.kind_eq] at hkey
    cases he : s.entry key with
    | none =>
      obtain ⟨s₁, hset, ht⟩ := h.add hkey he (fun c hc i hi => (hroom he c hc i hi).1) value
      rw [editStep, hset] at hs
      obtain rfl := some.inj hs
      exact ht
    | some e =>
      obtain ⟨s₁, hset, ht⟩ := h.replace hkey he value dst
      rw [editStep, hset] at hs
      obtain rfl := some.inj hs
      exact ht
  | remove p =>
    obtain ⟨key, hkey⟩ := hop
    rw [h.kind_eq] at hkey
    by_cases hlone : s.LoneOther key
    · rw [editStep, h.remove_lone hkey hlone] at hs
      cases hs
    by_cases hsize : 1 ≤ size
    · obtain ⟨s₁, hrem, ht, -⟩ := h.remove hsize hkey hlone
      rw [editStep, hrem] at hs
      obtain rfl := some.inj hs
      exact ht
    · rw [editStep, remove_zero (by rw [h.size_eq]; omega)] at hs
      cases hs

end Tidy

def Deletes (s : Store V) (p : ℕ) (key : Key) : Prop :=
  ∃ s', hashmapRemove s p = some ((s.entry key).bind Entry.value, s') ∧
    s'.entry = Function.update s.entry key none ∧ (s.entry key = none → s' = s)

/-- In every state that calls of `hashmap_set` and `hashmap_remove` lead to, `hashmap_remove` deletes unless
the bucket of the key holds one entry only and that has another key. A map needs a bucket for any call. -/
theorem hashmap_remove_iff (kind : KeyKind) (size : ℕ) (m : Buf) (ops : List (EditOp V)) (s : Store V)
    (hops : Machine.Guarded editStep Permitted ⟨m, hashmapNew size kind⟩ ops)
    (hs : Machine.runs editStep ⟨m, hashmapNew size kind⟩ ops = some s) (p : ℕ) (key : Key)
    (hkey : keyOf s.mem p s.map.kind = some key) : Deletes s p key ↔ 1 ≤ size ∧ ¬ s.LoneOther key := by
  have hinit : Tidy kind size (⟨m, hashmapNew size kind⟩ : Store V) := by
    have hempty : Tidy kind size (⟨m, kind, size, fun _ => []⟩ : Store V) :=
      (tidy_of_table (Buckets.Table.empty _) fun _ => .nil).1
    cases kind <;> exact hempty
  have ht := Machine.Guarded.invariant Tidy.step ops _ s hinit hops hs
  rw [ht.kind_eq] at hkey
  constructor
  · intro hdel
    obtain ⟨s', hrem, -⟩ := hdel
    constructor
    · by_contra h0
      rw [Tidy.remove_zero (by rw [ht.size_eq]; omega)] at hrem
      cases hrem
    · intro hlone
      rw [ht.remove_lone hkey hlone] at hrem
      cases hrem
  · rintro ⟨hsize, hlone⟩
    obtain ⟨s', hrem, -, hentry, habsent⟩ := ht.remove hsize hkey hlone
    exact ⟨s', hrem, hentry, habsent⟩

/-- Two keys in one bucket, then the first of them goes. -/
theorem hashmap_remove_iff_collision : ∃ s : Store ℕ,
    Machine.runs editStep ⟨fun _ => 0, hashmapNew 4 .int⟩ [.set 1 (some 7) 0, .set 5 (some 8) 0] = some s ∧
      (Deletes s 1 (.int 1) ↔ 1 ≤ 4 ∧ ¬ s.LoneOther (.int 1)) := by
  refine ⟨_, rfl, hashmap_remove_iff .int 4 (fun _ => 0) [.set 1 (some 7) 0, .set 5 (some 8) 0] _ ?_ rfl 1
    (.int 1) rfl⟩
  refine ⟨⟨_, rfl, fun _ c hc => absurd hc List.not_mem_nil⟩, ?_⟩
  intro s' hs'
  obtain rfl := some.inj hs'
  exact ⟨⟨_, rfl, fun _ c hc => absurd hc List.not_mem_nil⟩, fun _ _ => trivial⟩

/-- Key 5 is looked for in the bucket of key 1, where it is not: the entry behind that of key 1 is null. -/
theorem hashmap_remove_null : ∃ s : Store ℕ,
    Machine.runs editStep ⟨fun _ => 0, hashmapNew 4 .int⟩ [.set 1 (some 7) 0] = some s ∧
      ¬ Deletes s 5 (.int 5) := by
  refine ⟨_, rfl, ?_⟩
  intro h
  obtain ⟨s', hrem, -⟩ := h
  have hsome := congrArg Option.isSome hrem
  rw [isSome_some] at hsome
  revert hsome
  decide

end ChiffOS.Data
