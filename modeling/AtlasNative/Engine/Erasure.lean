import AtlasNative.Catalog.Acl

/-!
# Erasure coding of extents

The bytes of an extent are padded and cut into data shards, to which a codec adds parity shards. What
the codec does is assumed (`Codec.Correct`); cutting, choosing what the codec is handed, putting back
what it restores and joining are the code's own.
-/

namespace AtlasNative

open List

/-- The Reed-Solomon codec: the parity of data shards, and the missing data shards from the others,
each with its number. -/
structure Codec where
  encode : Nat → Nat → List Bytes → Except String (List Bytes)
  decode : Nat → Nat → List (Nat × Bytes) → List (Nat × Bytes) →
    Except String (List (Nat × Bytes))

/-- The shards that are left, each with its number. -/
def present (shards : List (Option Bytes)) : List (Nat × Bytes) :=
  shards.zipIdx.filterMap fun (s, i) => s.map (i, ·)

/-- `given` is what is left of the shards. -/
def LeftOf (given : List (Option Bytes)) (shards : List Bytes) : Prop :=
  Forall₂ (fun o s => ∀ t ∈ o, t = s) given shards

/-- `k` shards of one even length. -/
structure Sized (k : Nat) (data : List Bytes) (n : Nat) : Prop where
  count : data.length = k
  len : ∀ s ∈ data, s.length = n
  even : n % 2 = 0
  pos : 0 < n

/-- Some of the shards, each once and with its number. -/
structure SomeOf (shards : List Bytes) (l : List (Nat × Bytes)) : Prop where
  nodup : (l.map Prod.fst).Nodup
  shard : ∀ i s, (i, s) ∈ l → shards[i]? = some s

/-- From any `k` of the shards the codec restores the data shards that are missing. -/
structure Codec.Correct (c : Codec) (k m : Nat) : Prop where
  encode : ∀ data n, Sized k data n → ∃ parity, c.encode k m data = .ok parity ∧ parity.length = m
  decode : ∀ data parity n, Sized k data n → c.encode k m data = .ok parity →
    ∀ originals recovery, SomeOf data originals → SomeOf parity recovery →
    originals.length < k → k ≤ originals.length + recovery.length →
    ∃ restored, c.decode k m originals recovery = .ok restored ∧
      ∀ i s, (i, s) ∈ restored ↔ data[i]? = some s ∧ i ∉ originals.map Prod.fst

def codecError (e : String) : MetaError := .invalid s!"erasure codec: {e}"

structure EcShards where
  layout : EcLayout
  shards : List Bytes

namespace EcScheme

def resize (s : Bytes) (n : Nat) : Bytes := s.take n ++ replicate (n - s.length) 0

/-- Data shard `i` of `n` bytes. -/
def dataShard (data : Bytes) (n i : Nat) : Bytes :=
  let start := min (i * n) data.length
  let end_ := min ((i + 1) * n) data.length
  resize ((data.drop start).take (end_ - start)) n

def parityOf (c : Codec) (s : EcScheme) (data : List Bytes) : Except MetaError (List Bytes) :=
  (c.encode s.data s.parity data).mapError codecError

/-- The shards of `data`, data shards first. -/
def encode (c : Codec) (sha256 : Bytes → Bytes) (s : EcScheme) (data : Bytes) :
    Except MetaError EcShards := do
  let shardLen := s.shardLen data.length
  let shards := (range s.data).map (dataShard data shardLen)
  let shards := shards ++ (← s.parityOf c shards)
  return ⟨⟨s.data, s.parity, shardLen, shards.map sha256⟩, shards⟩

end EcScheme

namespace EcLayout

variable (c : Codec) (l : EcLayout) (shards : List (Option Bytes))

/-- Every shard has to be there. -/
def collect (shards : List (Option Bytes)) : Except MetaError (List Bytes) :=
  shards.mapM fun
    | some s => .ok s
    | none => .error (.invalid "shard not rebuilt")

/-- The data shards, the missing ones restored from the others. -/
def rebuildData : Except MetaError (List Bytes) :=
  match l.scheme with
  | .error e => .error e
  | .ok scheme =>
    let left := shards.countP (·.isSome)
    if shards.length ≠ scheme.shards then .error (.invalid "wrong shard count")
    else if left < l.data then
      .error (.invalid s!"{left} of {scheme.shards} shards left, {l.data} needed")
    else if none ∈ shards.take l.data then
      match c.decode l.data l.parity (present (shards.take l.data)) (present (shards.drop l.data)) with
      | .error e => .error (codecError e)
      | .ok restored =>
        collect ((restored.foldl (fun shards (i, s) => shards.set i (some s)) shards).take l.data)
    else collect (shards.take l.data)

/-- All shards. -/
def rebuild : Except MetaError (List Bytes) := do
  let scheme ← l.scheme
  let data ← l.rebuildData c shards
  let parity ← if none ∈ shards.drop l.data then scheme.parityOf c data
    else .ok ((shards.drop l.data).filterMap id)
  return data ++ parity

/-- The extent's `len` bytes. -/
def join (dataShards : List Bytes) (len : Nat) : Bytes := (dataShards.take l.data).flatten.take len

end EcLayout

/-- A slice of bytes, which is at most `isize::MAX` long. -/
abbrev Slice := { bytes : Bytes // bytes.length < 2 ^ 63 }

/-! ### Cutting and joining -/

namespace EcScheme

theorem dataShard_eq (data : Bytes) (n i : Nat) : dataShard data n i = resize ((data.drop (i * n)).take n) n := by
  have hmul : (i + 1) * n = i * n + n := Nat.succ_mul i n
  dsimp only [dataShard]
  congr 1
  rcases Nat.le_total data.length (i * n) with h | h
  · rw [drop_eq_nil_of_le h, drop_eq_nil_of_le (by omega), take_nil, take_nil]
  · rw [min_eq_left h]
    rcases Nat.le_total data.length (i * n + n) with h' | h'
    · rw [take_of_length_le (by rw [length_drop]; omega), take_of_length_le (by rw [length_drop]; omega)]
    · rw [show min ((i + 1) * n) data.length - i * n = n by omega]

/-- The data shards hold the bytes, and zeros after them. -/
theorem flatten_dataShards {k n : Nat} (data : Bytes) (h : data.length ≤ k * n) :
    ((range k).map (dataShard data n)).flatten = data ++ replicate (k * n - data.length) 0 := by
  induction k generalizing data with
  | zero =>
    have : data = [] := length_eq_zero_iff.mp (by omega)
    simp [this]
  | succ k ih =>
    have hshift : ∀ i, dataShard data n (i + 1) = dataShard (data.drop n) n i := by
      intro i
      rw [dataShard_eq, dataShard_eq, drop_drop, Nat.succ_mul, Nat.add_comm n]
    have hmul : (k + 1) * n = k * n + n := Nat.succ_mul k n
    rw [range_succ_eq_map, map_cons, flatten_cons, map_map, dataShard_eq, Nat.zero_mul, drop_zero]
    have hrest : (range k).map (dataShard data n ∘ Nat.succ) =
        (range k).map (dataShard (data.drop n) n) := map_congr_left fun i _ => hshift i
    rw [hrest, ih _ (by rw [length_drop]; omega), length_drop, resize, take_take, min_self]
    rcases Nat.le_total data.length n with hle | hle
    · rw [take_of_length_le hle, drop_eq_nil_of_le hle, append_assoc, nil_append, ← replicate_add]
      congr 2
      omega
    · rw [length_take, min_eq_left hle, Nat.sub_self, replicate_zero, append_nil, ← append_assoc, take_append_drop]
      congr 2
      omega

theorem shardLen_spec {s : EcScheme} (hs : 0 < s.data) {len : Nat} (hlen : len < 2 ^ 63) :
    0 < s.shardLen len ∧ s.shardLen len % 2 = 0 ∧ len ≤ s.data * s.shardLen len := by
  have hceil : (len + s.data - 1) / s.data ≤ len := by
    rw [Nat.div_le_iff_le_mul_add_pred hs]
    have := Nat.le_mul_of_pos_left len hs
    omega
  have hfull : len ≤ s.data * ((len + s.data - 1) / s.data) := by
    have := Nat.div_add_mod (len + s.data - 1) s.data
    have := Nat.mod_lt (len + s.data - 1) hs
    omega
  unfold shardLen u64
  generalize hn : max ((len + s.data - 1) / s.data) 2 = n
  rw [Nat.mod_eq_of_lt (by omega)]
  refine ⟨by omega, by omega, hfull.trans (Nat.mul_le_mul_left _ (by omega))⟩

end EcScheme

/-! ### What is left of the shards -/

theorem length_present (given : List (Option Bytes)) : (present given).length = given.countP (·.isSome) := by
  conv_rhs => rw [← zipIdx_map_fst 0 given, countP_map]
  rw [present, length_filterMap_eq_countP]
  congr 1
  funext x
  simp

theorem mem_present {given : List (Option Bytes)} {i : Nat} {s : Bytes} :
    (i, s) ∈ present given ↔ given[i]? = some (some s) := by
  simp only [present, mem_filterMap, Prod.exists, mk_mem_zipIdx_iff_getElem?]
  constructor
  · rintro ⟨o, j, hj, ho⟩
    obtain ⟨t, rfl, heq⟩ := Option.map_eq_some_iff.mp ho
    cases heq
    exact hj
  · exact fun h => ⟨some s, i, h, rfl⟩

theorem nodup_present (given : List (Option Bytes)) : ((present given).map Prod.fst).Nodup := by
  have hnum : given.zipIdx.Pairwise fun x y => x.2 ≠ y.2 := by
    refine pairwise_map.mp (?_ : (given.zipIdx.map Prod.snd).Nodup)
    rw [zipIdx_map_snd]
    exact nodup_range'
  refine pairwise_map.mpr (hnum.filterMap _ ?_)
  intro x y hne a ha b hb
  obtain ⟨_, -, rfl⟩ := Option.map_eq_some_iff.mp ha
  obtain ⟨_, -, rfl⟩ := Option.map_eq_some_iff.mp hb
  exact hne

namespace LeftOf

variable {given : List (Option Bytes)} {shards : List Bytes}

theorem eq_map (h : LeftOf given shards) (hall : none ∉ given) : given = shards.map some := by
  induction h with
  | nil => rfl
  | cons h _ ih =>
    rename_i o s _ _
    obtain ⟨ho, hrest⟩ := not_or.mp (mem_cons.not.mp hall)
    obtain ⟨t, rfl⟩ := Option.ne_none_iff_exists'.mp (Ne.symm ho)
    rw [map_cons, ← ih hrest, h t rfl]

theorem set (h : LeftOf given shards) {i : Nat} {s : Bytes} (hs : shards[i]? = some s) :
    LeftOf (given.set i (some s)) shards := by
  induction h generalizing i with
  | nil => simp at hs
  | cons h hrest ih =>
    cases i with
    | zero =>
      obtain rfl := Option.some.inj hs
      exact .cons (fun t ht => (Option.some.inj ht).symm) hrest
    | succ i => exact .cons h (ih hs)

theorem someOf (h : LeftOf given shards) : SomeOf shards (present given) where
  nodup := nodup_present given
  shard i s hs := by
    have hs := mem_present.mp hs
    obtain ⟨hi, hget⟩ := List.getElem?_eq_some_iff.mp hs
    have hi' : i < shards.length := h.length_eq ▸ hi
    rw [getElem?_eq_getElem hi', h.get hi hi' s hget]
    rfl

/-- The restored shards are put where they belong, and nothing else is missing there. -/
theorem restore (h : LeftOf given shards) (restored : List (Nat × Bytes))
    (hr : ∀ x ∈ restored, shards[x.1]? = some x.2) :
    LeftOf (restored.foldl (fun g (i, s) => g.set i (some s)) given) shards ∧
      ∀ i : Nat, (restored.foldl (fun g (i, s) => g.set i (some s)) given)[i]? = some none →
        given[i]? = some none ∧ ∀ s, (i, s) ∉ restored := by
  induction restored generalizing given with
  | nil => exact ⟨h, fun i hi => ⟨hi, fun _ => not_mem_nil⟩⟩
  | cons x restored ih =>
    obtain ⟨hx, hrest⟩ := forall_mem_cons.mp hr
    obtain ⟨hleft, hmiss⟩ := ih (h.set hx) hrest
    refine ⟨hleft, fun i hi => ?_⟩
    obtain ⟨hi, hno⟩ := hmiss i hi
    rw [getElem?_set] at hi
    split at hi
    · split at hi <;> cases hi
    · rename_i hne
      refine ⟨hi, fun s hs => ?_⟩
      rcases mem_cons.mp hs with rfl | hs
      · exact hne rfl
      · exact hno s hs

end LeftOf

/-! ### Rebuilding -/

theorem rebuildData_eq {c : Codec} {n : Nat} {data parity : List Bytes}
    {given : List (Option Bytes)} {l : EcLayout} (hc : c.Correct l.data l.parity)
    (hscheme : l.scheme = .ok ⟨l.data, l.parity⟩) (hdata : Sized l.data data n)
    (hparity : parity.length = l.parity) (henc : c.encode l.data l.parity data = .ok parity)
    (h : LeftOf given (data ++ parity)) (henough : l.data ≤ given.countP (·.isSome)) :
    l.rebuildData c given = .ok data := by
  have hsplit : (data ++ parity).take l.data = data ∧ (data ++ parity).drop l.data = parity :=
    ⟨take_left' hdata.count, drop_left' hdata.count⟩
  -- where nothing is missing any more, the data shards are found
  have hend : ∀ g, LeftOf g (data ++ parity) → none ∉ g.take l.data → EcLayout.collect (g.take l.data) = .ok data := by
    intro g hg hall
    rw [LeftOf.eq_map (hsplit.1 ▸ forall₂_take _ hg) hall, EcLayout.collect, mapM_map]
    exact mapM_pure.trans (congrArg Except.ok (map_id data))
  have hlength : given.length = (EcScheme.mk l.data l.parity).shards := by
    rw [h.length_eq, length_append, hdata.count, hparity]
    rfl
  rw [EcLayout.rebuildData, hscheme]
  dsimp only
  rw [if_neg (not_not.mpr hlength), if_neg henough.not_gt]
  split
  · rename_i hmiss
    have hds : LeftOf (given.take l.data) data := hsplit.1 ▸ forall₂_take _ h
    have hfew : (present (given.take l.data)).length < l.data := by
      rw [length_present]
      exact (countP_lt_length_iff.mpr ⟨none, hmiss, rfl⟩).trans_eq (hds.length_eq.trans hdata.count)
    obtain ⟨restored, hdec, hrest⟩ := hc.decode data parity n hdata henc _ _ hds.someOf
      (LeftOf.someOf (hsplit.2 ▸ forall₂_drop _ h)) hfew
      (by rw [length_present, length_present, ← countP_append, take_append_drop]; exact henough)
    rw [hdec]
    obtain ⟨hleft, hnone⟩ := h.restore restored fun x hx => by
      obtain ⟨hd, -⟩ := (hrest x.1 x.2).mp hx
      rw [getElem?_append_left (List.getElem?_eq_some_iff.mp hd).1]
      exact hd
    refine hend _ hleft fun hin => ?_
    obtain ⟨i, hi⟩ := mem_iff_getElem?.mp hin
    rw [getElem?_take] at hi
    split at hi
    · rename_i hik
      obtain ⟨hold, hno⟩ := hnone i hi
      refine hno _ ((hrest i _).mpr ⟨getElem?_eq_getElem (hdata.count ▸ hik), fun hin => ?_⟩)
      obtain ⟨⟨j, s⟩, hs, rfl⟩ := mem_map.mp hin
      have hs := mem_present.mp hs
      rw [getElem?_take, if_pos hik, hold] at hs
      cases hs
    · cases hi
  · rename_i hall
    exact hend given h hall

/-- Any `data` of the shards of an extent give back all of them, and the data shards its bytes; fewer
do not. -/
theorem rebuild_encode (c : Codec) (sha256 : Bytes → Bytes) {k m : Nat} {scheme : EcScheme}
    (hnew : EcScheme.new k m = .ok scheme) (hc : c.Correct k m) (bytes : Slice) :
    ∃ e, scheme.encode c sha256 bytes.1 = .ok e ∧
      e.layout.check bytes.1.length e.shards.length = .ok () ∧
      e.layout.join (e.shards.take k) bytes.1.length = bytes.1 ∧
      (∀ given, LeftOf given e.shards → k ≤ given.countP (·.isSome) →
        e.layout.rebuild c given = .ok e.shards) ∧
      ∀ given : List (Option Bytes), given.countP (·.isSome) < k →
        ∃ err, e.layout.rebuild c given = .error err := by
  obtain ⟨bytes, hbytes⟩ := bytes
  have hnew' := hnew
  unfold EcScheme.new at hnew
  split at hnew
  · cases hnew
  rename_i hbounds
  obtain rfl := (Except.ok.inj hnew).symm
  obtain ⟨hn, heven, hfull⟩ := EcScheme.shardLen_spec (s := ⟨k, m⟩) (by show 0 < k; omega) hbytes
  generalize hlen : (EcScheme.mk k m).shardLen bytes.length = n at hn heven hfull
  generalize hdata : (range k).map (EcScheme.dataShard bytes n) = data
  have hlength : data.length = k := by simp [← hdata]
  have hsized : Sized k data n := by
    refine ⟨hlength, fun s hs => ?_, heven, hn⟩
    rw [← hdata] at hs
    obtain ⟨i, -, rfl⟩ := mem_map.mp hs
    simp [EcScheme.dataShard_eq, EcScheme.resize]
  obtain ⟨parity, henc, hparity⟩ := hc.encode data n hsized
  have hp : (EcScheme.mk k m).parityOf c data = .ok parity := by rw [EcScheme.parityOf, henc]; rfl
  have hscheme : ∀ sums, (EcLayout.mk k m n sums).scheme = .ok ⟨k, m⟩ := by
    intro sums
    rw [EcLayout.scheme, hnew']
    rfl
  refine ⟨⟨⟨k, m, n, (data ++ parity).map sha256⟩, data ++ parity⟩, ?_, ?_, ?_,
    fun given h henough => ?_, fun given hfew => ?_⟩
  · simp only [EcScheme.encode, hlen, hdata, hp]
    rfl
  · have hcount : (data ++ parity).length = (EcScheme.mk k m).shards := by
      rw [length_append, hlength, hparity]
      rfl
    simp only [EcLayout.check, hscheme, bind, Except.bind, hcount, length_map, hlen, ne_eq,
      not_true_eq_false, or_self, if_false]
    rfl
  · simp only [EcLayout.join, take_left' hlength, take_of_length_le hlength.le]
    rw [← hdata, EcScheme.flatten_dataShards bytes hfull, take_left]
  · have hd := rebuildData_eq (l := ⟨k, m, n, (data ++ parity).map sha256⟩) hc (hscheme _) hsized hparity henc h henough
    simp only [EcLayout.rebuild, hscheme, bind, Except.bind, hd]
    split
    · rw [hp]
      rfl
    · rename_i hall
      rw [LeftOf.eq_map (drop_left' hlength ▸ forall₂_drop k h) hall]
      simp [pure, Except.pure]
  · simp only [EcLayout.rebuild, EcLayout.rebuildData, hscheme, hfew, if_true, bind, Except.bind]
    split
    · exact ⟨_, rfl⟩
    · rename_i hno
      split at hno <;> cases hno

theorem SomeOf.length_le {shards : List Bytes} {l : List (Nat × Bytes)} (h : SomeOf shards l) :
    l.length ≤ shards.length := by
  have hsub : l.map Prod.fst ⊆ range shards.length := by
    intro i hi
    obtain ⟨x, hx, rfl⟩ := mem_map.mp hi
    exact mem_range.mpr (List.getElem?_eq_some_iff.mp (h.shard _ _ hx)).1
  simpa using (h.nodup.subperm hsub).length_le

/-! ### One parity shard for two data shards -/

def xorBytes (a b : Bytes) : Bytes := zipWith (· ^^^ ·) a b

theorem xorBytes_cancel {a b : Bytes} (h : a.length = b.length) : xorBytes a (xorBytes a b) = b := by
  induction a generalizing b with
  | nil => exact (length_eq_zero_iff.mp h.symm).symm
  | cons x a ih =>
    cases b with
    | nil => cases h
    | cons y b =>
      have hhead : x ^^^ (x ^^^ y) = y := by rw [← UInt8.xor_assoc, UInt8.xor_self, UInt8.zero_xor]
      exact congrArg₂ List.cons hhead (ih (Nat.succ.inj h))

theorem xorBytes_comm (a b : Bytes) : xorBytes a b = xorBytes b a := zipWith_comm_of_comm UInt8.xor_comm

/-- The parity is the sum of the two data shards, and so is each of them that of the two others. -/
def xorParity : Codec where
  encode _ _ data := .ok [xorBytes (data.getD 0 []) (data.getD 1 [])]
  decode _ _ originals recovery := .ok (originals.zipWith (fun d p => (1 - d.1, xorBytes d.2 p.2)) recovery)

theorem xorParity_correct : xorParity.Correct 2 1 where
  encode data n h := ⟨_, rfl, rfl⟩
  decode data parity n h henc originals recovery ho hr hmiss henough := by
    obtain ⟨a, b, rfl⟩ := length_eq_two.mp h.count
    obtain rfl := Except.ok.inj henc
    have hlen : a.length = b.length := (h.len a (by simp)).trans (h.len b (by simp)).symm
    have hone : recovery.length ≤ 1 := hr.length_le
    obtain ⟨⟨i, d⟩, rfl⟩ := length_eq_one_iff.mp (by omega : originals.length = 1)
    obtain ⟨⟨j, p⟩, rfl⟩ := length_eq_one_iff.mp (by omega : recovery.length = 1)
    have hd := ho.shard i d (mem_singleton_self _)
    have hp := hr.shard j p (mem_singleton_self _)
    obtain rfl : j = 0 := Nat.lt_one_iff.mp (List.getElem?_eq_some_iff.mp hp).1
    obtain rfl := Option.some.inj hp
    match i with
    | 0 =>
      obtain rfl := Option.some.inj hd
      refine ⟨[(1, b)], by simp [xorParity, xorBytes_cancel hlen], fun i s => ?_⟩
      match i with
      | 0 => simp
      | 1 => simp [eq_comm]
      | i + 2 => simp
    | 1 =>
      obtain rfl := Option.some.inj hd
      refine ⟨[(0, a)], by simp [xorParity, xorBytes_comm a, xorBytes_cancel hlen.symm], fun i s => ?_⟩
      match i with
      | 0 => simp [eq_comm]
      | 1 => simp
      | i + 2 => simp
    | i + 2 => cases hd

theorem rebuild_encode_xor : ∃ e, EcScheme.encode xorParity id ⟨2, 1⟩ [7, 8, 9] = .ok e ∧
    e.layout.rebuild xorParity [none, some [9, 0], some [14, 8]] = .ok e.shards := by
  obtain ⟨e, he, -, -, hall, -⟩ := rebuild_encode xorParity id (k := 2) (m := 1) rfl xorParity_correct ⟨[7, 8, 9], by decide⟩
  refine ⟨e, he, hall _ ?_ (by decide)⟩
  obtain rfl := Except.ok.inj he
  exact .cons (fun _ h => by cases h) (.cons (fun t ht => (Option.some.inj ht).symm) (.cons (fun t ht => (Option.some.inj ht).symm) .nil))

end AtlasNative
