import ChiffOS.Lib.Buckets
import ChiffOS.Lib.Bytes
import ChiffOS.Lib.Runs

/-! The hash maps of `hashmap.c`. Keys are pointers: a string key is the text in memory behind it, and the
map keeps a copy of that; an int key is the pointer itself. A bucket is the chain of its entries. -/

namespace ChiffOS.Data

open Function List

/-! ### Strings -/

/-- The bytes of the address space: no loop over a string goes further. -/
def memSize : ℕ := 2 ^ 32

/-- A round of the loop of `hashmap_string_hash`; a `char` is signed. -/
def sdbm (hash : UInt32) (c : UInt8) : UInt32 := c.toInt8.toInt32.toUInt32 + (hash <<< 6) +
    (hash <<< 16) - hash

def hashFrom (m : Buf) : ℕ → ℕ → UInt32 → Option UInt32
  | 0, _, _ => none
  | k + 1, key, hash => if m key = 0 then some hash else hashFrom m k (key + 1) (sdbm hash (m key))

def hashmapStringHash (m : Buf) (key : ℕ) : Option UInt32 := hashFrom m memSize key 0

def strcmpFrom (m : Buf) : ℕ → ℕ → ℕ → Option UInt32
  | 0, _, _ => none
  | k + 1, s1, s2 =>
    if m s1 ≠ 0 ∧ m s1 = m s2 then strcmpFrom m k (s1 + 1) (s2 + 1)
    else some ((m s1).toInt8.toInt32 - (m s2).toInt8.toInt32).toUInt32

def strcmp (m : Buf) (s1 s2 : ℕ) : Option UInt32 := strcmpFrom m memSize s1 s2

def strlenFrom (m : Buf) : ℕ → ℕ → Option ℕ
  | 0, _ => none
  | k + 1, s => if m s = 0 then some 0 else (strlenFrom m k (s + 1)).map (· + 1)

def strlen (m : Buf) (s : ℕ) : Option ℕ := strlenFrom m memSize s

/-- The copy comes to `dst`, the memory from `valloc`. -/
def strdup (m : Buf) (s dst : ℕ) : Option (ℕ × Buf) := (strlen m s).map fun l =>
    (dst, m.blit dst (m.drop s) (l + 1))

/-! ### The map -/

/-- Which functions the map was made with: `hashmap_create` or `hashmap_create_int`. -/
inductive KeyKind where
  | string
  | int
  deriving DecidableEq

/-- A value is a pointer; `none` is null. -/
structure Entry (V : Type) where
  key : ℕ
  value : Option V

structure Hashmap (V : Type) where
  kind : KeyKind
  size : ℕ
  entries : ℕ → List (Entry V)

variable {V : Type}

def hashmapCreate (size : ℕ) : Hashmap V := ⟨.string, size, fun _ => []⟩

def hashmapCreateInt (size : ℕ) : Hashmap V := ⟨.int, size, fun _ => []⟩

def hashFunc (m : Buf) (key : ℕ) : KeyKind → Option UInt32
  | .string => hashmapStringHash m key
  | .int => some (UInt32.ofNat key)

def hashComp (m : Buf) (a b : ℕ) : KeyKind → Option Bool
  | .string => (strcmp m a b).map (· == 0)
  | .int => some (Int32.ofNat a == Int32.ofNat b)

def hashKeyDup (m : Buf) (key dst : ℕ) : KeyKind → Option (ℕ × Buf)
  | .string => strdup m key dst
  | .int => some (key, m)

def setChain (kind : KeyKind) (m : Buf) (key : ℕ) (value : Option V) : List (Entry V) → Option
    (Option (Option V × List (Entry V)))
  | [] => some none
  | x :: xs => do
    if ← hashComp m x.key key kind then return some (x.value, { x with value := value } :: xs)
    else return (← setChain kind m key value xs).map fun (out, xs) => (out, x :: xs)

def getChain (kind : KeyKind) (m : Buf) (key : ℕ) : List (Entry V) → Option (Option V)
  | [] => some none
  | x :: xs => do
    if ← hashComp m x.key key kind then return x.value
    else getChain kind m key xs

def hasChain (kind : KeyKind) (m : Buf) (key : ℕ) : List (Entry V) → Option Bool
  | [] => some false
  | x :: xs => do
    if ← hashComp m x.key key kind then return true
    else hasChain kind m key xs

/-- The memory with the strings, and the map. -/
structure Store (V : Type) where
  mem : Buf
  map : Hashmap V

def Store.bucket (s : Store V) (key : ℕ) : Option ℕ := (hashFunc s.mem key s.map.kind).map fun h =>
    h.toNat % s.map.size

def hashmapSet (s : Store V) (key : ℕ) (value : Option V) (dst : ℕ) : Option (Option V × Store V) := do
  let hash ← s.bucket key
  match ← setChain s.map.kind s.mem key value (s.map.entries hash) with
  | some (out, xs) => return (out, { s with map := { s.map with entries := update s.map.entries hash xs } })
  | none =>
    let (k, mem) ← hashKeyDup s.mem key dst s.map.kind
    let entries := update s.map.entries hash (s.map.entries hash ++ [⟨k, value⟩])
    return (none, ⟨mem, { s.map with entries := entries }⟩)

def hashmapGet (s : Store V) (key : ℕ) : Option (Option V) := do
  let hash ← s.bucket key
  getChain s.map.kind s.mem key (s.map.entries hash)

def hashmapHas (s : Store V) (key : ℕ) : Option Bool := do
  let hash ← s.bucket key
  hasChain s.map.kind s.mem key (s.map.entries hash)

def hashmapKeys (map : Hashmap V) : List ℕ := (List.range map.size).flatMap fun i =>
    (map.entries i).map Entry.key

def hashmapValues (map : Hashmap V) : List (Option V) := (List.range map.size).flatMap fun i =>
    (map.entries i).map Entry.value

/-! ### Texts -/

def textFrom (m : Buf) : ℕ → ℕ → Option (List UInt8)
  | 0, _ => none
  | k + 1, p => if m p = 0 then some [] else (textFrom m k (p + 1)).map (m p :: ·)

def textAt (m : Buf) (p : ℕ) : Option (List UInt8) := textFrom m memSize p

variable {m m' : Buf} {p q k : ℕ} {t u : List UInt8}

theorem textFrom_cons (h : textFrom m (k + 1) p = some t) :
    (m p = 0 ∧ t = []) ∨ (m p ≠ 0 ∧ ∃ t', textFrom m k (p + 1) = some t' ∧ t = m p :: t') := by
  rw [textFrom] at h
  by_cases hp : m p = 0
  · rw [if_pos hp] at h
    exact .inl ⟨hp, (Option.some.inj h).symm⟩
  · rw [if_neg hp] at h
    obtain ⟨t', ht, rfl⟩ := Option.map_eq_some_iff.mp h
    exact .inr ⟨hp, t', ht, rfl⟩

theorem hashFrom_text (h : textFrom m k p = some t) (hash : UInt32) : hashFrom m k p hash =
    some (t.foldl sdbm hash) := by
  induction k generalizing p t hash with
  | zero => cases h
  | succ k ih =>
    rcases textFrom_cons h with ⟨hp, rfl⟩ | ⟨hp, t', ht, rfl⟩
    · rw [hashFrom, if_pos hp, foldl_nil]
    · rw [hashFrom, if_neg hp, ih ht, foldl_cons]

theorem strlenFrom_text (h : textFrom m k p = some t) : strlenFrom m k p = some t.length := by
  induction k generalizing p t with
  | zero => cases h
  | succ k ih =>
    rcases textFrom_cons h with ⟨hp, rfl⟩ | ⟨hp, t', ht, rfl⟩
    · rw [strlenFrom, if_pos hp, length_nil]
    · rw [strlenFrom, if_neg hp, ih ht, Option.map_some, length_cons]

theorem charDiff_eq_zero (a b : UInt8) : (a.toInt8.toInt32 - b.toInt8.toInt32).toUInt32 = 0 ↔ a = b := by
  constructor
  · intro h
    have h1 : a.toInt8.toInt32 - b.toInt8.toInt32 = 0 := by simpa using congrArg UInt32.toInt32 h
    have h2 : a.toInt8.toInt32 = b.toInt8.toInt32 := by simpa using Int32.sub_eq_iff_eq_add.mp h1
    have h3 : a.toInt8.toInt = b.toInt8.toInt := by rw [← Int8.toInt_toInt32, h2, Int8.toInt_toInt32]
    simpa using congrArg Int8.toUInt8 (Int8.toInt_inj.mp h3)
  · rintro rfl
    rw [Int32.sub_self]
    rfl

theorem strcmpFrom_text (h : textFrom m k p = some t) (hq : textFrom m k q = some u) :
    ∃ r, strcmpFrom m k p q = some r ∧ (r = 0 ↔ t = u) := by
  induction k generalizing p q t u with
  | zero => cases h
  | succ k ih =>
    rw [strcmpFrom]
    by_cases hsame : m p ≠ 0 ∧ m p = m q
    · rw [if_pos hsame]
      obtain ⟨hp, hpq⟩ := hsame
      rcases textFrom_cons h with ⟨h0, _⟩ | ⟨_, t', ht, rfl⟩
      · exact absurd h0 hp
      rcases textFrom_cons hq with ⟨h0, _⟩ | ⟨_, u', hu, rfl⟩
      · exact absurd (hpq ▸ h0) hp
      obtain ⟨r, hr, hz⟩ := ih ht hu
      exact ⟨r, hr, by rw [hz, hpq, cons_inj_right]⟩
    · rw [if_neg hsame]
      refine ⟨_, rfl, ?_⟩
      rw [charDiff_eq_zero]
      rcases textFrom_cons h with ⟨h0, rfl⟩ | ⟨hp, t', ht, rfl⟩
      · rcases textFrom_cons hq with ⟨h1, rfl⟩ | ⟨h1, u', hu, rfl⟩
        · simp [h0, h1]
        · simp [h0, Ne.symm h1]
      · have hne : m p ≠ m q := fun he => hsame ⟨hp, he⟩
        rcases textFrom_cons hq with ⟨h1, rfl⟩ | ⟨h1, u', hu, rfl⟩
        · simp [hne]
        · simp [hne]

theorem textFrom_same (h : textFrom m k p = some t) (hm : ∀ i ≤ t.length, m' (q + i) = m (p + i)) :
    textFrom m' k q = some t := by
  induction k generalizing p q t with
  | zero => cases h
  | succ k ih =>
    have h0 : m' q = m p := hm 0 (Nat.zero_le _)
    rcases textFrom_cons h with ⟨hp, rfl⟩ | ⟨hp, t', ht, rfl⟩
    · rw [textFrom, if_pos (h0.trans hp)]
    · rw [textFrom, if_neg (by rwa [h0]), h0]
      have hrest : textFrom m' k (q + 1) = some t' := by
        apply ih ht
        intro i hi
        have := hm (i + 1) (by simpa using hi)
        rwa [Nat.add_right_comm, Nat.add_assoc q, Nat.add_right_comm, Nat.add_assoc p]
      rw [hrest, Option.map_some]

/-! ### Keys -/

/-- What a key is, apart from where it is kept. -/
inductive Key where
  | text (t : List UInt8)
  | int (n : UInt32)
  deriving DecidableEq

def keyOf (m : Buf) (p : ℕ) : KeyKind → Option Key
  | .string => (textAt m p).map .text
  | .int => some (.int (UInt32.ofNat p))

def Key.hash : Key → UInt32
  | .text t => t.foldl sdbm 0
  | .int n => n

def Key.area : Key → ℕ → List (ℕ × ℕ)
  | .text t, dst => [(dst, t.length + 1)]
  | .int _, _ => []

variable {kind : KeyKind} {key key' : Key}

theorem hashFunc_key (h : keyOf m p kind = some key) : hashFunc m p kind = some key.hash := by
  cases kind with
  | string =>
    obtain ⟨t, ht, rfl⟩ := Option.map_eq_some_iff.mp h
    exact hashFrom_text ht 0
  | int =>
    obtain rfl := Option.some.inj h
    rfl

theorem hashComp_key (h : keyOf m p kind = some key) (h' : keyOf m q kind = some key') :
    hashComp m p q kind = some (decide (key = key')) := by
  cases kind with
  | string =>
    obtain ⟨t, ht, rfl⟩ := Option.map_eq_some_iff.mp h
    obtain ⟨u, hu, rfl⟩ := Option.map_eq_some_iff.mp h'
    obtain ⟨r, hr, hz⟩ := strcmpFrom_text ht hu
    simp only [hashComp, strcmp, hr, Option.map_some, Key.text.injEq, ← hz]
    rfl
  | int =>
    obtain rfl := Option.some.inj h
    obtain rfl := Option.some.inj h'
    have hiff : Int32.ofNat p = Int32.ofNat q ↔ UInt32.ofNat p = UInt32.ofNat q :=
      ⟨fun he => congrArg Int32.toUInt32 he, fun he => congrArg UInt32.toInt32 he⟩
    simp only [hashComp, Key.int.injEq, ← hiff]
    rfl

/-! ### Chains -/

structure Shows (kind : KeyKind) (m : Buf) (copies : List (ℕ × ℕ)) (x : Entry V) (kv : Key × Option V) :
    Prop where
  key : keyOf m x.key kind = some kv.1
  value : x.value = kv.2
  copy : ∀ c ∈ kv.1.area x.key, c ∈ copies

variable {xs : List (Entry V)} {kvs : List (Key × Option V)} {copies : List (ℕ × ℕ)}

theorem setChain_shows (h : List.Forall₂ (Shows kind m copies) xs kvs) (hp : keyOf m p kind = some key)
    (value : Option V) :
    (Buckets.find key kvs = none ∧ setChain kind m p value xs = some none) ∨
      ∃ old xs', Buckets.find key kvs = some old ∧ setChain kind m p value xs = some (some (old, xs')) ∧
        List.Forall₂ (Shows kind m copies) xs' (Buckets.put key value kvs) := by
  induction h with
  | nil => exact .inl ⟨rfl, rfl⟩
  | @cons x kv xs kvs hx hxs ih =>
    obtain ⟨k, v⟩ := kv
    have hc := hashComp_key hx.key hp
    by_cases hk : k = key
    · refine .inr ⟨x.value, { x with value := value } :: xs, ?_, ?_, ?_⟩
      · rw [Buckets.find, if_pos hk, hx.value]
      · simp [setChain, hc, hk]
      · rw [Buckets.put, if_pos hk]
        exact .cons ⟨hx.key, rfl, hx.copy⟩ hxs
    · rw [Buckets.find, if_neg hk]
      rcases ih with ⟨hf, hs⟩ | ⟨old, xs', hf, hs, hrest⟩
      · exact .inl ⟨hf, by simp [setChain, hc, hk, hs]⟩
      · refine .inr ⟨old, x :: xs', hf, by simp [setChain, hc, hk, hs], ?_⟩
        rw [Buckets.put, if_neg hk]
        exact .cons hx hrest

theorem getChain_shows (h : List.Forall₂ (Shows kind m copies) xs kvs) (hp : keyOf m p kind = some key) :
    getChain kind m p xs = some (Buckets.find key kvs).join := by
  induction h with
  | nil => rfl
  | @cons x kv xs kvs hx hxs ih =>
    obtain ⟨k, v⟩ := kv
    have hc := hashComp_key hx.key hp
    by_cases hk : k = key
    · simp [getChain, hc, hk, Buckets.find, hx.value]
    · simp [getChain, hc, hk, Buckets.find, ih]

theorem hasChain_shows (h : List.Forall₂ (Shows kind m copies) xs kvs) (hp : keyOf m p kind = some key) :
    hasChain kind m p xs = some (Buckets.find key kvs).isSome := by
  induction h with
  | nil => rfl
  | @cons x kv xs kvs hx hxs ih =>
    obtain ⟨k, v⟩ := kv
    have hc := hashComp_key hx.key hp
    by_cases hk : k = key
    · simp [hasChain, hc, hk, Buckets.find]
    · simp [hasChain, hc, hk, Buckets.find, ih]

/-! ### The map as a finite map -/

/-- The calls, and the writes of others to memory. `dst` is the memory that `valloc` gives for the copy of a
new key. -/
inductive MapOp (V : Type) where
  | poke (addr : ℕ) (c : UInt8)
  | set (p : ℕ) (value : Option V) (dst : ℕ)
  | get (p : ℕ)
  | has (p : ℕ)
  | keys
  | values

inductive MapOut (V : Type) where
  | done
  | value (v : Option V)
  | flag (b : Bool)
  | keys (ps : List ℕ)
  | values (vs : List (Option V))

def hashmapCall (s : Store V) : MapOp V → Option (MapOut V × Store V)
  | .poke addr c => some (.done, { s with mem := update s.mem addr c })
  | .set p value dst => (hashmapSet s p value dst).map fun (out, s) => (.value out, s)
  | .get p => (hashmapGet s p).map fun out => (.value out, s)
  | .has p => (hashmapHas s p).map fun out => (.flag out, s)
  | .keys => some (.keys (hashmapKeys s.map), s)
  | .values => some (.values (hashmapValues s.map), s)

/-- A finite map from keys, the memory, and the parts of it that hold copies of keys. -/
structure MapState (V : Type) where
  mem : Buf
  copies : List (ℕ × ℕ)
  stored : Key → Option (Option V)

def MapState.Unowned (a : MapState V) (addr : ℕ) : Prop := ∀ c ∈ a.copies, addr < c.1 ∨ c.1 + c.2 ≤ addr

def Key.copied : Key → Buf → ℕ → Buf
  | .text t, m, dst => m.blit dst (fun i => t.getD i 0) (t.length + 1)
  | .int _, m, _ => m

/-- The memory for a copy overlaps neither other copies nor the key itself. -/
def MapState.Room (a : MapState V) (key : Key) (p dst : ℕ) : Prop :=
  ∀ c ∈ key.area dst, ∀ i < c.2, a.Unowned (c.1 + i) ∧ (c.1 + i < p ∨ p + c.2 ≤ c.1 + i)

def MapState.pre (kind : KeyKind) (a : MapState V) : MapOp V → Prop
  | .poke addr _ => a.Unowned addr
  | .set p _ dst => ∃ key, keyOf a.mem p kind = some key ∧ (a.stored key = none → a.Room key p dst)
  | .get p => ∃ key, keyOf a.mem p kind = some key
  | .has p => ∃ key, keyOf a.mem p kind = some key
  | .keys => True
  | .values => True

def MapState.Enumerates (a : MapState V) (ks : List Key) : Prop := ks.Nodup ∧ ∀ key, key ∈ ks ↔
    (a.stored key).isSome

inductive MapStep (kind : KeyKind) (a : MapState V) : MapOp V → MapOut V → MapState V → Prop
  | poke (addr : ℕ) (c : UInt8) : MapStep kind a (.poke addr c) .done { a with mem := update a.mem addr c }
  | replace {p : ℕ} {value old : Option V} {key : Key} (dst : ℕ) (hkey : keyOf a.mem p kind = some key)
    (h : a.stored key = some old) :
    MapStep kind a (.set p value dst) (.value old) { a with stored := update a.stored key (some value) }
  | add {p dst : ℕ} {value : Option V} {key : Key} (hkey : keyOf a.mem p kind = some key) (h : a.stored key =
    none) :
    MapStep kind a (.set p value dst) (.value none)
      ⟨key.copied a.mem dst, key.area dst ++ a.copies, update a.stored key (some value)⟩
  | get {p : ℕ} {key : Key} (hkey : keyOf a.mem p kind = some key) :
    MapStep kind a (.get p) (.value (a.stored key).join) a
  | has {p : ℕ} {key : Key} (hkey : keyOf a.mem p kind = some key) :
    MapStep kind a (.has p) (.flag (a.stored key).isSome) a
  | keys {ps : List ℕ} {ks : List Key} (hps : ps.map (keyOf a.mem · kind) = ks.map some)
    (h : a.Enumerates ks) :
    MapStep kind a .keys (.keys ps) a
  | values {vs : List (Option V)} {ks : List Key} (hvs : vs.map some = ks.map a.stored)
    (h : a.Enumerates ks) :
    MapStep kind a .values (.values vs) a

structure Refines (kind : KeyKind) (size : ℕ) (s : Store V) (a : MapState V) : Prop where
  kind_eq : s.map.kind = kind
  size_eq : s.map.size = size
  mem : s.mem = a.mem
  table : ∃ t, Buckets.Table (fun key : Key => key.hash.toNat % size) t a.stored ∧
    ∀ i, List.Forall₂ (Shows kind a.mem a.copies) (s.map.entries i) (t i)

theorem textFrom_byte (h : textFrom m k p = some t) : ∀ i ≤ t.length, m (p + i) = t.getD i 0 := by
  induction k generalizing p t with
  | zero => cases h
  | succ k ih =>
    intro i hi
    rcases textFrom_cons h with ⟨hp, rfl⟩ | ⟨hp, t', ht, rfl⟩
    · obtain rfl : i = 0 := by simpa using hi
      simpa using hp
    · cases i with
      | zero => simp
      | succ i =>
        have := ih ht i (by simpa using hi)
        rw [getD_cons_succ, ← this]
        congr 1
        omega

theorem keyOf_keep (h : keyOf m p kind = some key)
    (hm : ∀ c ∈ key.area p, ∀ i < c.2, m' (c.1 + i) = m (c.1 + i)) :
    keyOf m' p kind = some key := by
  cases kind with
  | string =>
    obtain ⟨t, ht, rfl⟩ := Option.map_eq_some_iff.mp h
    have ht' : textAt m' p = some t := textFrom_same ht fun i hi =>
      hm (p, t.length + 1) (by simp [Key.area]) i (Nat.lt_succ_of_le hi)
    rw [keyOf, ht', Option.map_some]
  | int => exact h

theorem copied_other {dst addr : ℕ} (h : ∀ c ∈ key.area dst, addr < c.1 ∨ c.1 + c.2 ≤ addr) :
    key.copied m dst addr = m addr := by
  cases key with
  | text t =>
    rw [Key.copied]
    exact Buf.blit_out (h (dst, t.length + 1) (mem_singleton_self _))
  | int n => rfl

theorem hashKeyDup_key (h : keyOf m p kind = some key) (dst : ℕ) :
    ∃ p', hashKeyDup m p dst kind = some (p', key.copied m dst) ∧ keyOf (key.copied m dst) p' kind =
      some key ∧
      key.area p' = key.area dst := by
  cases kind with
  | string =>
    obtain ⟨t, ht, rfl⟩ := Option.map_eq_some_iff.mp h
    have hbyte := textFrom_byte ht
    have hcopy : m.blit dst (m.drop p) (t.length + 1) = (Key.text t).copied m dst :=
      Buf.blit_congr fun i hi => hbyte i (Nat.le_of_lt_succ hi)
    refine ⟨dst, ?_, ?_, rfl⟩
    · rw [hashKeyDup, strdup, strlen, strlenFrom_text ht, Option.map_some, hcopy]
    · have ht' : textAt ((Key.text t).copied m dst) dst = some t := by
        apply textFrom_same ht
        intro i hi
        rw [hbyte i hi, Key.copied, Buf.blit_in (Nat.le_add_right _ _) (by omega), Nat.add_sub_cancel_left]
      rw [keyOf, ht', Option.map_some]
  | int =>
    obtain rfl := Option.some.inj h
    exact ⟨p, rfl, rfl, rfl⟩

variable {s : Store V} {a : MapState V} {size : ℕ}

/-- Writes to memory that holds no copy keep the map. -/
theorem Shows.keep {x : Entry V} {kv : Key × Option V} (h : Shows kind a.mem a.copies x kv)
    (hm : ∀ addr, ¬ a.Unowned addr → m' addr = a.mem addr) (hc : a.copies ⊆ copies) :
      Shows kind m' copies x kv := by
  refine ⟨keyOf_keep h.key ?_, h.value, fun c h' => hc (h.copy c h')⟩
  intro c h' i hi
  apply hm
  intro hun
  have := hun c (h.copy c h')
  omega

theorem Refines.poke (h : Refines kind size s a) {addr : ℕ} (hun : a.Unowned addr) (c : UInt8) :
    Refines kind size { s with mem := update s.mem addr c } { a with mem := update a.mem addr c } := by
  obtain ⟨t, ht, hall⟩ := h.table
  refine ⟨h.kind_eq, h.size_eq, by rw [h.mem], t, ht, ?_⟩
  intro i
  apply (hall i).imp
  intro x kv hx
  apply hx.keep _ (List.Subset.refl _)
  intro addr' hown
  apply update_of_ne
  rintro rfl
  exact hown hun

theorem Refines.bucket (h : Refines kind size s a) (hkey : keyOf a.mem p kind = some key) :
    s.bucket p = some (key.hash.toNat % size) := by
  rw [Store.bucket, h.mem, h.kind_eq, hashFunc_key hkey, h.size_eq, Option.map_some]

theorem Refines.get (h : Refines kind size s a) (hkey : keyOf a.mem p kind = some key) :
    hashmapGet s p = some (a.stored key).join := by
  obtain ⟨t, ht, hall⟩ := h.table
  rw [hashmapGet, h.bucket hkey, Option.bind_eq_bind, Option.bind_some, h.kind_eq, h.mem,
    getChain_shows (hall _) hkey, ht.find key]

theorem Refines.has (h : Refines kind size s a) (hkey : keyOf a.mem p kind = some key) :
    hashmapHas s p = some (a.stored key).isSome := by
  obtain ⟨t, ht, hall⟩ := h.table
  rw [hashmapHas, h.bucket hkey, Option.bind_eq_bind, Option.bind_some, h.kind_eq, h.mem,
    hasChain_shows (hall _) hkey, ht.find key]

/-- One chain is changed. -/
theorem forall₂_update {α β : Type} {R : α → β → Prop} {f : ℕ → List α} {g : ℕ → List β}
    (h : ∀ i, List.Forall₂ R (f i) (g i))
    {j : ℕ} {xs : List α} {ys : List β} (hj : List.Forall₂ R xs ys) (i : ℕ) :
    List.Forall₂ R (update f j xs i) (update g j ys i) := by
  by_cases hi : i = j
  · subst hi
    rw [update_self, update_self]
    exact hj
  · rw [update_of_ne hi, update_of_ne hi]
    exact h i

theorem Refines.replace (h : Refines kind size s a) (hkey : keyOf a.mem p kind = some key) {old : Option V}
    (hold : a.stored key = some old) (value : Option V) (dst : ℕ) :
    ∃ s', hashmapSet s p value dst = some (old, s') ∧
      Refines kind size s' { a with stored := update a.stored key (some value) } := by
  obtain ⟨t, ht, hall⟩ := h.table
  have hfind := ht.find key
  rw [hold] at hfind
  rcases setChain_shows (hall (key.hash.toNat % size)) hkey value with ⟨hnone, _⟩ | ⟨old', xs', hsome, hset,
    hxs⟩
  · rw [hfind] at hnone
    cases hnone
  · rw [hfind] at hsome
    obtain rfl := Option.some.inj hsome
    rw [← h.kind_eq, ← h.mem] at hset
    refine ⟨{ s with map := { s.map with entries := update s.map.entries (key.hash.toNat % size) xs' } }, ?_,
      h.kind_eq, h.size_eq, h.mem, _, ht.put key value, forall₂_update hall hxs⟩
    simp only [hashmapSet, h.bucket hkey, Option.bind_eq_bind, Option.bind_some, hset, Option.pure_def]

theorem Refines.add (h : Refines kind size s a) (hkey : keyOf a.mem p kind = some key)
    (hnew : a.stored key = none)
    {dst : ℕ} (hroom : a.Room key p dst) (value : Option V) :
    ∃ s', hashmapSet s p value dst = some (none, s') ∧
      Refines kind size s' ⟨key.copied a.mem dst, key.area dst ++ a.copies,
        update a.stored key (some value)⟩ := by
  obtain ⟨t, ht, hall⟩ := h.table
  have hfind := ht.find key
  rw [hnew] at hfind
  rcases setChain_shows (hall (key.hash.toNat % size)) hkey value with ⟨_, hset⟩ | ⟨old', xs', hsome, _⟩
  · obtain ⟨p', hdup, hkey', harea⟩ := hashKeyDup_key hkey dst
    have hkeep : ∀ i, List.Forall₂ (Shows kind (key.copied a.mem dst) (key.area dst ++ a.copies))
      (s.map.entries i) (t i) := by
      intro i
      apply (hall i).imp
      intro x kv hx
      apply hx.keep _ (subset_append_right _ _)
      intro addr hown
      apply copied_other
      intro c hc
      by_contra hin
      have := (hroom c hc (addr - c.1) (by omega)).1
      rw [show c.1 + (addr - c.1) = addr by omega] at this
      exact hown this
    have hput := ht.put key value
    rw [Buckets.put_absent hfind] at hput
    rw [← h.kind_eq, ← h.mem] at hset hdup
    refine ⟨⟨key.copied a.mem dst, s.map.kind, s.map.size, update s.map.entries (key.hash.toNat % size)
      (s.map.entries (key.hash.toNat % size) ++ [⟨p', value⟩])⟩, ?_, h.kind_eq, h.size_eq, rfl, _, hput,
        forall₂_update hkeep ?_⟩
    · simp only [hashmapSet, h.bucket hkey, Option.bind_eq_bind, Option.bind_some, hset, hdup,
        Option.pure_def]
      rw [h.mem]
    · apply rel_append (hkeep _)
      refine .cons ⟨hkey', rfl, ?_⟩ .nil
      intro c hc
      rw [harea] at hc
      exact mem_append_left _ hc
  · rw [hfind] at hsome
    cases hsome

theorem Refines.all (h : Refines kind size s a) (hsize : 1 ≤ size) : ∃ kvs : List (Key × Option V),
    a.Enumerates (kvs.map Prod.fst) ∧ (∀ kv ∈ kvs, a.stored kv.1 = some kv.2) ∧
      List.Forall₂ (Shows kind a.mem a.copies) ((List.range s.map.size).flatMap s.map.entries) kvs := by
  obtain ⟨t, ht, hall⟩ := h.table
  have hplace : ∀ key : Key, key.hash.toNat % size < size := fun key => Nat.mod_lt _ hsize
  refine ⟨Buckets.Table.all t size, ⟨ht.all_nodup size, ?_⟩, ?_, ?_⟩
  · intro key
    rw [mem_map, Option.isSome_iff_exists]
    constructor
    · rintro ⟨⟨key', v⟩, hm, rfl⟩
      exact ⟨v, (ht.mem_all hplace).mp hm⟩
    · rintro ⟨v, hv⟩
      exact ⟨(key, v), (ht.mem_all hplace).mpr hv, rfl⟩
  · rintro ⟨key, v⟩ hm
    exact (ht.mem_all hplace).mp hm
  · rw [h.size_eq]
    exact rel_flatMap (forall₂_same.mpr fun _ _ => Eq.refl _) fun i j hij => hij ▸ hall i

/-- Related lists have the same images under functions that agree on related elements. -/
theorem map_eq_of_forall₂ {α β γ : Type} {R : α → β → Prop} {f : α → γ} {g : β → γ} {xs : List α}
    {ys : List β}
    (h : List.Forall₂ R xs ys) (hfg : ∀ x y, R x y → f x = g y) : xs.map f = ys.map g := by
  induction h with
  | nil => rfl
  | cons hx _ ih => rw [map_cons, map_cons, hfg _ _ hx, ih]

theorem Refines.keys (h : Refines kind size s a) (hsize : 1 ≤ size) : MapStep kind a .keys
    (.keys (hashmapKeys s.map)) a := by
  obtain ⟨kvs, henum, _, hall⟩ := h.all hsize
  refine .keys ?_ henum
  rw [hashmapKeys, ← map_flatMap, map_map, map_map]
  exact map_eq_of_forall₂ hall fun x kv hx => hx.key

theorem Refines.values (h : Refines kind size s a) (hsize : 1 ≤ size) :
    MapStep kind a .values (.values (hashmapValues s.map)) a := by
  obtain ⟨kvs, henum, hstored, hall⟩ := h.all hsize
  refine .values ?_ henum
  rw [hashmapValues, ← map_flatMap, map_map, map_map]
  calc ((List.range s.map.size).flatMap s.map.entries).map (some ∘ Entry.value)
      = kvs.map fun kv => some kv.2 := map_eq_of_forall₂ hall fun x kv hx => congrArg some hx.value
    _ = kvs.map (a.stored ∘ Prod.fst) := map_congr_left fun kv hkv => (hstored kv hkv).symm

theorem Refines.step (hsize : 1 ≤ size) (s : Store V) (a : MapState V) (op : MapOp V)
    (h : Refines kind size s a)
    (hpre : a.pre kind op) :
    ∃ out s' a', hashmapCall s op = some (out, s') ∧ MapStep kind a op out a' ∧ Refines kind size s' a' := by
  cases op with
  | poke addr c => exact ⟨_, _, _, rfl, .poke addr c, h.poke hpre c⟩
  | set p value dst =>
    obtain ⟨key, hkey, hroom⟩ := hpre
    cases hold : a.stored key with
    | none =>
      obtain ⟨s', hs, hr⟩ := h.add hkey hold (hroom hold) value
      exact ⟨_, s', _, by rw [hashmapCall, hs]; rfl, .add hkey hold, hr⟩
    | some old =>
      obtain ⟨s', hs, hr⟩ := h.replace hkey hold value dst
      exact ⟨_, s', _, by rw [hashmapCall, hs]; rfl, .replace dst hkey hold, hr⟩
  | get p =>
    obtain ⟨key, hkey⟩ := hpre
    exact ⟨_, s, a, by rw [hashmapCall, h.get hkey]; rfl, .get hkey, h⟩
  | has p =>
    obtain ⟨key, hkey⟩ := hpre
    exact ⟨_, s, a, by rw [hashmapCall, h.has hkey]; rfl, .has hkey, h⟩
  | keys => exact ⟨_, s, a, rfl, h.keys hsize, h⟩
  | values => exact ⟨_, s, a, rfl, h.values hsize, h⟩

def hashmapNew (size : ℕ) : KeyKind → Hashmap V
  | .string => hashmapCreate size
  | .int => hashmapCreateInt size

/-- Every row of calls on a new map is answered as by a finite map. -/
theorem hashmap_finite_map (kind : KeyKind) (size : ℕ) (hsize : 1 ≤ size) (m : Buf) (ops : List (MapOp V))
    (h : Machine.Allowed (MapState.pre kind) (MapStep kind) ⟨m, [], fun _ => none⟩ ops) :
    ∃ outs s a, Machine.answers hashmapCall ⟨m, hashmapNew size kind⟩ ops = some (outs, s) ∧
      Machine.SpecRun (MapStep kind) ⟨m, [], fun _ => none⟩ ops outs a := by
  have hinit : Refines kind size (⟨m, hashmapNew size kind⟩ : Store V) ⟨m, [], fun _ => none⟩ := by
    refine ⟨?_, ?_, rfl, fun _ => [], Buckets.Table.empty _, ?_⟩
    · cases kind <;> rfl
    · cases kind <;> rfl
    · intro i
      cases kind <;> exact .nil
  obtain ⟨outs, s, a, hs, hrun, _⟩ := Machine.Allowed.served (Refines.step hsize) ops _ _ hinit h
  exact ⟨outs, s, a, hs, hrun⟩

theorem hashmap_finite_map_copy : ∃ outs s a,
    Machine.answers hashmapCall ⟨fun i => if i = 100 ∨ i = 300 then 97 else 0, hashmapNew 1 .string⟩
      [.set 100 (some ()) 200, .poke 100 98, .get 300, .keys] = some (outs, s) ∧
    Machine.SpecRun (MapStep .string) ⟨fun i => if i = 100 ∨ i = 300 then 97 else 0, [], fun _ => none⟩
      [.set 100 (some ()) 200, .poke 100 98, .get 300, .keys] outs a := by
  have hkey : keyOf (fun i => if i = 100 ∨ i = 300 then 97 else 0) 100 .string =
    some (.text [97]) := by decide +kernel
  apply hashmap_finite_map .string 1 (by decide)
  refine ⟨⟨_, hkey, ?_⟩, ?_⟩
  · intro _ c hc i hi
    obtain rfl := mem_singleton.mp hc
    refine ⟨fun c hc => absurd hc not_mem_nil, ?_⟩
    simp only [length_singleton] at hi ⊢
    omega
  · intro out a' h
    cases h with
    | replace dst hk hold => cases hold
    | add hk hnew =>
      rw [hkey] at hk
      obtain rfl := Option.some.inj hk
      refine ⟨?_, ?_⟩
      · intro c hc
        obtain rfl := mem_singleton.mp hc
        exact .inl (by decide)
      · intro out a' h
        cases h
        refine ⟨⟨.text [97], by decide +kernel⟩, ?_⟩
        intro out a' h
        exact ⟨trivial, fun _ _ _ => trivial⟩

end ChiffOS.Data
