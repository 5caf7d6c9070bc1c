import TreeJit.Proofs.Json.Written
import TreeJit.Trace.Kind

/-!
# The kind table reads back

A trace starts with the table of its kinds as JSON text, in the order of the numbers' texts.  Reading
it gives the entries in another order, which does not matter since their numbers are distinct.

* `Kind.json`                what a kind is written as;
* `KindTable.read_encode`    the text of a table, with nothing behind it;
* `KindTable.lookup_read`    a number finds its kind again.
-/

namespace TreeJit.Trace

/-! ## one kind -/

def Kind.json (k : Kind) : JsonValue :=
  .object [("Name".toList, .string k.name.toList),
    ("Flags".toList, .number (Nat.toDigits 10 k.flags.bits.toNat))]

namespace KindTable

theorem number_toDigits {n bound : Nat} (h : n < bound) :
    number? bound (Nat.toDigits 10 n) = some n := by
  unfold number?
  rw [Decimal.digits?_toDigits, Option.filter_some, if_pos (decide_eq_true h)]

theorem setField_name (k : Kind) (s : String) :
    setField? k "Name".toList (.string s.toList) = some { k with name := s } := by
  have h : sameField "Name".toList "Name" = true := by decide
  unfold setField?
  simp only [h, if_true, String.ofList_toList]

theorem setField_flags (k : Kind) (f : UInt32) :
    setField? k "Flags".toList (.number (Nat.toDigits 10 f.toNat)) =
      some { k with flags := ⟨f⟩ } := by
  have h1 : sameField "Flags".toList "Name" = false := by decide
  have h2 : sameField "Flags".toList "Flags" = true := by decide
  unfold setField?
  simp only [h1, h2, if_true, Bool.false_eq_true, if_false, number_toDigits f.toNat_lt,
    Option.map_some, UInt32.ofNat_toNat]

/-- **A kind reads back.** -/
theorem kind_json (k : Kind) : kind? k.json = some k := by
  unfold kind? Kind.json
  simp only [List.foldlM_cons, List.foldlM_nil, setField_name, setField_flags, Option.bind_eq_bind,
    Option.bind_some, Option.pure_def]

theorem id_toDigits (id : UInt64) : id? (Nat.toDigits 10 id.toNat) = some id := by
  have hne : Nat.toDigits 10 id.toNat ≠ "null".toList := by
    intro e
    have hd := JsonValue.isDigit_toDigits id.toNat 'n' (by rw [e]; decide)
    exact absurd hd (by decide)
  unfold id?
  rw [if_neg hne, number_toDigits id.toNat_lt, Option.map_some, UInt64.ofNat_toNat]

/-! ## entries -/

def member (e : UInt64 × Kind) : List Char × JsonValue :=
  (Nat.toDigits 10 e.1.toNat, e.2.json)

def flagsBytes (k : Kind) (bs : List UInt8) : List UInt8 :=
  utf8Bytes (JsonText.quoted "Flags") ++ 0x3A :: (utf8Bytes (toString k.flags.bits.toNat) ++ 0x7D :: bs)

def kindBytes (k : Kind) (bs : List UInt8) : List UInt8 :=
  0x7B :: (utf8Bytes (JsonText.quoted "Name") ++ 0x3A ::
    (utf8Bytes (JsonText.quoted k.name) ++ 0x2C :: flagsBytes k bs))

theorem utf8Bytes_memberText (e : UInt64 × Kind) (bs : List UInt8) : utf8Bytes (memberText e) ++ bs =
    utf8Bytes (JsonText.quoted (toString e.1.toNat)) ++ 0x3A :: kindBytes e.2 bs := by
  have h1 : utf8Bytes ":\x7b\"Name\":" =
    0x3A :: 0x7B :: (utf8Bytes (JsonText.quoted "Name") ++ [0x3A]) := by decide
  have h2 : utf8Bytes ",\"Flags\":" = 0x2C :: (utf8Bytes (JsonText.quoted "Flags") ++ [0x3A]) := by
    decide
  have h3 : utf8Bytes "\x7d" = [0x7D] := by decide
  unfold memberText kindBytes flagsBytes
  simp only [utf8Bytes_append, h1, h2, h3, List.append_assoc, List.cons_append, List.nil_append]

theorem value_kind (fuel : Nat) {depth : Nat} (hd : depth < JsonValue.maxDepth) (k : Kind)
    (bs : List UInt8) :
    JsonValue.value? (fuel + 4) depth (kindBytes k bs) = some (k.json, bs) := by
  have hflags : JsonValue.members? (fuel + 2) (depth + 1) (flagsBytes k bs) = _ :=
    JsonValue.members_one (JsonValue.value_toString fuel (depth + 1) _ JsonValue.ends_brace bs)
  have hname := JsonValue.members_more (k := "Name")
    (JsonValue.value_quoted (fuel + 1) (depth + 1) k.name (0x2C :: flagsBytes k bs))
  rw [hflags, Option.map_some] at hname
  unfold kindBytes
  rw [JsonValue.utf8Bytes_quoted "Name", List.cons_append] at hname ⊢
  exact JsonValue.value_object hd hname

/-! ## the table -/

/-- **The members of a table read back**, one after the other. -/
theorem members_entries {depth : Nat} (hd : depth < JsonValue.maxDepth) (bs : List UInt8)
    (e : UInt64 × Kind) (es : List (UInt64 × Kind)) {fuel : Nat} (hf : es.length + 5 ≤ fuel) :
    JsonValue.members? fuel depth
      (utf8Bytes (",".intercalate ((e :: es).map memberText)) ++ 0x7D :: bs) =
        some ((e :: es).map member, bs) := by
  have hkey : ∀ e : UInt64 × Kind, (toString e.1.toNat).toList = Nat.toDigits 10 e.1.toNat := by
    intro e
    rw [Nat.toString_eq_repr, Nat.repr_eq_ofList_toDigits, String.toList_ofList]
  obtain ⟨fuel, rfl⟩ := Nat.exists_eq_add_of_le' hf
  induction es generalizing e with
  | nil =>
    rw [List.map_singleton, String.intercalate_singleton, utf8Bytes_memberText]
    rw [show fuel + ([].length + 5) = fuel + 4 + 1 from rfl,
      JsonValue.members_one (value_kind fuel hd e.2 (0x7D :: bs)), hkey]
    rfl
  | cons e' es ih =>
    have hcomma : utf8Bytes "," = [0x2C] := by decide
    rw [List.map_cons, List.map_cons, String.intercalate_cons_cons, utf8Bytes_append,
      utf8Bytes_append, hcomma, List.append_assoc, List.append_assoc, utf8Bytes_memberText,
      ← List.map_cons]
    have hfuel : fuel + ((e' :: es).length + 5) = fuel + (es.length + 1) + 4 + 1 := by
      rw [List.length_cons]
      omega
    rw [hfuel, List.singleton_append, JsonValue.members_more (value_kind _ hd e.2 _), hkey]
    rw [show fuel + (es.length + 1) + 4 = fuel + (es.length + 5) by omega, ih e' (by omega)]
    rfl

def sorted (t : KindTable) : List (UInt64 × Kind) :=
  t.mergeSort fun a b => decide (toString a.1.toNat ≤ toString b.1.toNat)

theorem encode_eq (t : KindTable) : t.encode =
    0x7B :: (utf8Bytes (",".intercalate (t.sorted.map memberText)) ++ [0x7D]) := by
  have h1 : utf8Bytes "\x7b" = [0x7B] := by decide
  have h2 : utf8Bytes "\x7d" = [0x7D] := by decide
  unfold encode text
  rw [utf8Bytes_append, utf8Bytes_append, h1, h2, List.singleton_append, List.cons_append]
  rfl

theorem head_memberText (e : UInt64 × Kind) : ∃ r, utf8Bytes (memberText e) = 0x22 :: r := by
  have h := utf8Bytes_memberText e []
  rw [List.append_nil, JsonValue.utf8Bytes_quoted, List.cons_append] at h
  exact ⟨_, h⟩

theorem head_entries (e : UInt64 × Kind) (es : List (UInt64 × Kind)) :
    ∃ r, utf8Bytes (",".intercalate ((e :: es).map memberText)) = 0x22 :: r := by
  obtain ⟨r, hr⟩ := head_memberText e
  cases es with
  | nil => exact ⟨r, hr⟩
  | cons e' es =>
    rw [List.map_cons, List.map_cons, String.intercalate_cons_cons, utf8Bytes_append,
      utf8Bytes_append, hr]
    exact ⟨_, rfl⟩

theorem length_entries (es : List (UInt64 × Kind)) :
    es.length ≤ (utf8Bytes (",".intercalate (es.map memberText))).length := by
  have hone : ∀ e, 1 ≤ (utf8Bytes (memberText e)).length := by
    intro e
    obtain ⟨r, hr⟩ := head_memberText e
    rw [hr]
    exact Nat.succ_le_succ (Nat.zero_le _)
  induction es with
  | nil => exact Nat.zero_le _
  | cons e es ih =>
    cases es with
    | nil => exact hone e
    | cons e' es =>
      have := hone e
      rw [List.map_cons] at ih ⊢
      rw [List.map_cons, String.intercalate_cons_cons, utf8Bytes_append, utf8Bytes_append,
        List.length_append, List.length_append, List.length_cons]
      omega

/-- **The text of a table reads back**, with nothing left. -/
theorem read_encode (t : KindTable) :
    JsonValue.read t.encode = some (.object (t.sorted.map member), []) := by
  have hlen := length_entries t.sorted
  unfold JsonValue.read
  rw [encode_eq]
  cases hs : t.sorted with
  | nil => exact JsonValue.value_emptyObject (by decide)
  | cons e es =>
    rw [hs, List.length_cons] at hlen
    generalize hfuel : 2 * (0x7B :: (utf8Bytes _ ++ [0x7D])).length + 2 = fuel
    rw [List.length_cons, List.length_append, List.length_singleton] at hfuel
    obtain ⟨fuel, rfl⟩ : ∃ k, fuel = k + 1 := ⟨fuel - 1, by omega⟩
    have hdepth : 1 < JsonValue.maxDepth := by decide
    have hf : es.length + 5 ≤ fuel := by omega
    have hms := members_entries hdepth [] e es hf
    obtain ⟨r, hr⟩ := head_entries e es
    rw [hr, List.cons_append] at hms ⊢
    exact JsonValue.value_object (by decide) hms

/-! ## numbers -/

theorem ofJson_members (es : List (UInt64 × Kind)) :
    ofJson? (.object (es.map member)) = some es.reverse := by
  have h : (es.map member).mapM (fun p => do
      let k ← kind? p.2
      let id ← id? p.1
      return (id, k)) = some es := by
    induction es with
    | nil => rfl
    | cons e es ih =>
      rw [List.map_cons, List.mapM_cons, ih]
      simp only [member, kind_json, id_toDigits, Option.bind_eq_bind, Option.bind_some,
        Option.pure_def]
  exact congrArg (Option.map List.reverse) h

theorem lookup_of_mem {es : List (UInt64 × Kind)} (hn : (es.map Prod.fst).Nodup) {id : UInt64}
    {k : Kind} (h : (id, k) ∈ es) : es.lookup id = some k := by
  obtain ⟨l1, l2, rfl⟩ := List.append_of_mem h
  refine List.lookup_eq_some_iff.mpr ⟨l1, l2, rfl, fun p hp => ?_⟩
  rw [List.map_append, List.map_cons] at hn
  refine bne_iff_ne.mpr fun e => ?_
  exact (List.nodup_append.mp hn).2.2 _ (List.mem_map_of_mem hp) _ List.mem_cons_self e.symm

theorem getElem?_ofKinds (ks : List Kind) (i : Nat) :
    (ofKinds ks)[i]? = (ks[i]?).map fun k => (UInt64.ofNat (i + 1), k) := List.getElem?_mapIdx

theorem length_ofKinds (ks : List Kind) : (ofKinds ks).length = ks.length := List.length_mapIdx

theorem ids_nodup {ks : List Kind} (h : ks.length < 2 ^ 32) : ((ofKinds ks).map Prod.fst).Nodup := by
  refine List.pairwise_iff_getElem.mpr fun i j hi hj hij e => ?_
  rw [List.length_map, length_ofKinds] at hi hj
  have hget : ∀ i : Nat, ∀ hi : i < ((ofKinds ks).map Prod.fst).length,
      ((ofKinds ks).map Prod.fst)[i].toNat = (i + 1) % 2 ^ 64 := by
    intro i hi
    have h := List.getElem?_eq_getElem hi
    rw [List.length_map, length_ofKinds] at hi
    rw [List.getElem?_map, getElem?_ofKinds, List.getElem?_eq_getElem hi, Option.map_some,
      Option.map_some] at h
    rw [← Option.some.inj h, UInt64.toNat_ofNat']
  have he := congrArg UInt64.toNat e
  rw [hget, hget] at he
  omega

/-- the table has every kind under its number, from 1 on -/
def Numbers (t : KindTable) (ks : List Kind) : Prop :=
  ∀ i : Fin ks.length, t.lookup (UInt64.ofNat (i + 1)) = some (ks.get i)

/-- **The table that is read finds every kind.** -/
theorem lookup_read {ks : List Kind} (h : (ofKinds ks).encode.length < 2 ^ 32) :
    ∃ v t, JsonValue.read (ofKinds ks).encode = some (v, []) ∧ ofJson? v = some t ∧
      Numbers t ks := by
  have hperm : (ofKinds ks).sorted.Perm (ofKinds ks) := List.mergeSort_perm _ _
  have hlen : ks.length < 2 ^ 32 := by
    have hle := length_entries (ofKinds ks).sorted
    rw [hperm.length_eq, length_ofKinds] at hle
    rw [encode_eq, List.length_cons, List.length_append] at h
    omega
  have hrev : (ofKinds ks).sorted.reverse.Perm (ofKinds ks) := (List.reverse_perm _).trans hperm
  refine ⟨_, _, read_encode _, ofJson_members _, fun i => ?_⟩
  refine lookup_of_mem ((hrev.map Prod.fst).nodup_iff.mpr (ids_nodup hlen)) (hrev.mem_iff.mpr ?_)
  refine List.mem_of_getElem? (i := i) ?_
  rw [getElem?_ofKinds, List.getElem?_eq_getElem i.isLt]
  rfl

end KindTable

end TreeJit.Trace
