import TreeJit.Proofs.Trace.Table
import TreeJit.Trace.Recorder

/-!
# Recorded traces read back

A recording writes the table of the kinds, zeros up to a multiple of 512 bytes and the records.
Writer and reader work out the zeros for themselves, and the reader takes the table in pieces; they
meet again at the first record.  A trace that is cut gives the records that are whole.

* `tableIntake_window`     the table is taken to its end and no further;
* `read_preamble`          what is read behind the table;
* `readRecords_take`       records of a trace that is cut;
* `Recorder.recorded`      what a recording leaves on its device;
* `recorded_reads_back`    the samples are those that were recorded.
-/

namespace TreeJit.Trace

/-! ## the end of the table -/

/-- how far a window was taken, and that there is room for what was taken -/
structure Intake.Fits (window : Nat) (s : Intake) : Prop where
  taken : s.taken ≤ window
  room : s.taken ≤ s.room
  pos : 0 < s.room

theorem Intake.Fits.step {window available : Nat} {s : Intake} (h : s.Fits window)
    (hlt : s.taken < min window available) :
    (s.step window available).Fits window ∧ s.taken < (s.step window available).taken := by
  obtain ⟨h1, h2, h3⟩ := h
  have hroom : s.taken < (if 3 * s.room / 4 ≤ s.taken then 2 * s.room else s.room) := by
    split <;> omega
  unfold Intake.step
  generalize (if 3 * s.room / 4 ≤ s.taken then 2 * s.room else s.room) = room at hroom ⊢
  have hfetched : ∀ want, 0 < (if s.fetched ≠ 0 then s.fetched
      else if blockSize ≤ want then want else blockSize) := by
    intro want
    unfold blockSize
    split
    · omega
    · split <;> omega
  have hf := hfetched (min (room - s.taken) (window - s.taken))
  simp only
  generalize (if s.fetched ≠ 0 then s.fetched else if blockSize ≤ _ then _ else blockSize) = fetched
    at hf ⊢
  exact ⟨⟨by simp only; omega, by simp only; omega, by simp only; omega⟩, by omega⟩

/-- pieces are taken until what is needed is there, and no further than the window -/
theorem until_taken {window available need : Nat} (hn : need ≤ min window available) {fuel : Nat}
    {s : Intake} (h : s.Fits window) (hf : min window available - s.taken < fuel) :
    need ≤ (Intake.until window available need fuel s).taken ∧
      (Intake.until window available need fuel s).taken ≤ window := by
  induction fuel generalizing s with
  | zero => exact absurd hf (Nat.not_lt_zero _)
  | succ fuel ih =>
    unfold Intake.until
    split
    · have := h.taken
      omega
    · have hlt : s.taken < min window available := by omega
      obtain ⟨h', hmore⟩ := h.step hlt
      exact ih h' (by omega)

theorem tableIntake_bounds {window available need : Nat} (hn : need ≤ min window available) :
    need ≤ tableIntake window available need ∧ tableIntake window available need ≤ window := by
  unfold tableIntake
  refine until_taken hn ⟨Nat.zero_le _, Nat.zero_le _, Nat.zero_lt_succ _⟩ ?_
  show _ - 0 < _
  omega

/-- **A table that fills its window is taken to its end**, however the pieces fall. -/
theorem tableIntake_window {window available : Nat} (hw : window ≤ available) :
    tableIntake window available window = window := by
  obtain ⟨h1, h2⟩ := @tableIntake_bounds window available window
    (Nat.le_min.mpr ⟨Nat.le_refl _, hw⟩)
  exact Nat.le_antisymm h2 h1

/-! ## what comes before the records -/

theorem length_headerBytes (n : Nat) : (headerBytes n).length = headerSize := by
  unfold headerBytes
  simp only [List.length_append, length_littleEndian]
  rfl

theorem words_headerBytes {n : Nat} (h : n < 2 ^ 32) (rest : List UInt8) :
    ofLittleEndian (((headerBytes n ++ rest).drop (4 * 0)).take 4) = magic ∧
      ofLittleEndian (((headerBytes n ++ rest).drop (4 * 1)).take 4) = version ∧
      ofLittleEndian (((headerBytes n ++ rest).drop (4 * 2)).take 4) = n := by
  have hlen : ∀ v, (littleEndian 4 v).length = 4 := length_littleEndian 4
  have hword : ∀ v r, v < 2 ^ 32 → ofLittleEndian ((littleEndian 4 v ++ r).take 4) = v := by
    intro v r hv
    rw [List.take_left' (hlen v), ofLittleEndian_littleEndian]
    exact Nat.mod_eq_of_lt hv
  have hbs : headerBytes n ++ rest =
      littleEndian 4 magic ++ (littleEndian 4 version ++ (littleEndian 4 n ++ rest)) := by
    unfold headerBytes
    rw [List.append_assoc, List.append_assoc]
  rw [hbs]
  refine ⟨hword _ _ (by decide), ?_, ?_⟩
  · rw [Nat.mul_one, List.drop_left' (hlen _)]
    exact hword _ _ (by decide)
  · rw [show 4 * 2 = 4 + 4 from rfl, ← List.drop_drop, List.drop_left' (hlen _),
      List.drop_left' (hlen _)]
    exact hword _ _ h

theorem readTable_append {table : List UInt8} {v : JsonValue} {t : KindTable}
    (hv : JsonValue.read table = some (v, [])) (ht : KindTable.ofJson? v = some t)
    (rest : List UInt8) : readTable table.length (table ++ rest) = some (t, rest) := by
  have htake : (table ++ rest).take table.length = table := List.take_left
  have hintake : tableIntake table.length (table ++ rest).length (table.length - 0) =
      table.length := tableIntake_window (by rw [List.length_append]; omega)
  unfold readTable
  simp only [htake, hv, ht, List.length_nil, hintake, List.drop_left]

/-- **The samples are looked for behind the table and its padding.** -/
theorem read_preamble {ks : List Kind} (h : (KindTable.ofKinds ks).encode.length < 2 ^ 32) :
    ∃ t : KindTable, t.Numbers ks ∧
      ∀ rest, read (headerBytes (KindTable.ofKinds ks).encode.length ++
          ((KindTable.ofKinds ks).encode ++ rest)) =
        if rest.length < padding (KindTable.ofKinds ks).encode.length then ([], some .padding)
        else readRecords t (rest.drop (padding (KindTable.ofKinds ks).encode.length)) := by
  obtain ⟨v, t, hv, ht, hlook⟩ := KindTable.lookup_read h
  generalize (KindTable.ofKinds ks).encode = table at h hv ⊢
  refine ⟨t, hlook, fun rest => ?_⟩
  obtain ⟨h0, h1, h2⟩ := words_headerBytes h (table ++ rest)
  have hlen : ¬ (headerBytes table.length ++ (table ++ rest)).length < headerSize := by
    rw [List.length_append, length_headerBytes]
    omega
  unfold read
  rw [if_neg hlen]
  simp only [h0, h1, h2, ne_eq, not_true_eq_false, if_false,
    List.drop_left' (length_headerBytes table.length), readTable_append hv ht]

theorem read_short {bs : List UInt8} (h : bs.length < headerSize) :
    read bs = ([], some (.header bs.isEmpty)) := if_pos h

/-! ## records -/

theorem length_recordBytes (r : Record) : (recordBytes r).length = recordSize := by
  unfold recordBytes
  simp only [List.length_append, length_littleEndian]
  rfl

theorem length_records (rs : List Record) :
    (rs.flatMap recordBytes).length = recordSize * rs.length := by
  induction rs with
  | nil => rfl
  | cons r rs ih =>
    rw [List.flatMap_cons, List.length_append, length_recordBytes, ih, List.length_cons]
    unfold recordSize
    omega

/-- **Records read back**, whatever follows them. -/
theorem recordsOf_append (rs : List Record) (rest : List UInt8) :
    recordsOf rs.length (rs.flatMap recordBytes ++ rest) = rs := by
  induction rs with
  | nil => rfl
  | cons r rs ih =>
    have h8 : ∀ v, (littleEndian 8 v).length = 8 := length_littleEndian 8
    have hword : ∀ x : UInt64, UInt64.ofNat (ofLittleEndian (littleEndian 8 x.toNat)) = x := by
      intro x
      rw [ofLittleEndian_littleEndian, Nat.mod_eq_of_lt (by exact x.toNat_lt), UInt64.ofNat_toNat]
    have hdrop : (recordBytes r ++ (rs.flatMap recordBytes ++ rest)).drop recordSize =
        rs.flatMap recordBytes ++ rest := List.drop_left' (length_recordBytes r)
    rw [List.flatMap_cons, List.append_assoc, List.length_cons, recordsOf, hdrop, ih]
    unfold recordBytes
    rw [List.append_assoc, List.take_left' (h8 _), List.drop_left' (h8 _), List.take_left' (h8 _),
      hword, hword]
    rfl

/-- the records of a trace that is cut, and what is left of the next one -/
theorem take_records {rs : List Record} {n : Nat} (h : n ≤ recordSize * rs.length) :
    ∃ tail, (rs.flatMap recordBytes).take n = (rs.take (n / recordSize)).flatMap recordBytes ++ tail ∧
      tail.length = n % recordSize := by
  have hk : n / recordSize ≤ rs.length := Nat.div_le_of_le_mul h
  have hlen : ((rs.take (n / recordSize)).flatMap recordBytes).length =
      recordSize * (n / recordSize) := by
    rw [length_records, List.length_take, Nat.min_eq_left hk]
  have hdiv := Nat.div_add_mod n recordSize
  have hsplit : rs.flatMap recordBytes = (rs.take (n / recordSize)).flatMap recordBytes ++
      (rs.drop (n / recordSize)).flatMap recordBytes := by
    rw [← List.flatMap_append, List.take_append_drop]
  refine ⟨((rs.drop (n / recordSize)).flatMap recordBytes).take (n % recordSize), ?_, ?_⟩
  · rw [hsplit, List.take_append, List.take_of_length_le (by omega), hlen]
    congr 2
    omega
  · have hle := congrArg List.length hsplit
    rw [List.length_append, length_records, hlen] at hle
    rw [List.length_take]
    omega

section
variable {ks : List Kind}

/-- a sample that is taken: one of the kinds, and how long it took -/
abbrev Call (ks : List Kind) := Fin ks.length × Int64

def Call.record (c : Call ks) : Record := ⟨UInt64.ofNat (c.1 + 1), c.2⟩

/-- what the record stands for -/
def Call.sample (c : Call ks) : Sample := ⟨ks[c.1].name, ks[c.1].flags, c.2⟩

theorem samplesOf_calls {t : KindTable} (ht : t.Numbers ks) (calls : List (Call ks)) :
    samplesOf t (calls.map Call.record) = (calls.map Call.sample, none) := by
  induction calls with
  | nil => rfl
  | cons c calls ih =>
    simp only [List.map_cons, samplesOf, Call.record, ht c.1] at ih ⊢
    rw [ih]
    rfl

/-- **Records that are whole are read**; a piece of another one is a fault. -/
theorem readRecords_take {t : KindTable} (ht : t.Numbers ks) (calls : List (Call ks)) {n : Nat}
    (h : n ≤ recordSize * calls.length) :
    readRecords t (((calls.map Call.record).flatMap recordBytes).take n) =
      ((calls.take (n / recordSize)).map Call.sample,
        if n % recordSize = 0 then none else some .recordCut) := by
  have hn : n ≤ recordSize * (calls.map Call.record).length := by rwa [List.length_map]
  obtain ⟨tail, e, htail⟩ := take_records hn
  have hlen := congrArg List.length e
  rw [List.length_append, length_records, htail] at hlen
  rw [← List.map_take] at e hlen
  have hmod : n % recordSize < recordSize := Nat.mod_lt _ (by decide)
  rw [e] at hlen ⊢
  have hdiv : (((calls.take (n / recordSize)).map Call.record).flatMap recordBytes ++ tail).length /
      recordSize = ((calls.take (n / recordSize)).map Call.record).length := by
    rw [hlen, Nat.mul_add_div (by decide), Nat.div_eq_of_lt hmod, Nat.add_zero]
  have hrem : (((calls.take (n / recordSize)).map Call.record).flatMap recordBytes ++ tail).length %
      recordSize = n % recordSize := by
    rw [hlen, Nat.mul_add_mod, Nat.mod_mod]
  unfold readRecords
  rw [hdiv, recordsOf_append, samplesOf_calls ht, hrem]

end

/-! ## recording -/

namespace Recording

def sent (r : Recording) : List UInt8 := r.device.data ++ r.held.reverse.flatMap recordBytes

theorem write_ok {d d' : Device} {bs : List UInt8} (h : d.write bs = some d') :
    d' = { d with data := d.data ++ bs } := by
  unfold Device.write at h
  exact (Option.some.inj (Option.ite_none_right_eq_some.mp h).2).symm

theorem write_unlimited {d : Device} (h : d.limit = none) (bs : List UInt8) :
    d.write bs = some { d with data := d.data ++ bs } := by
  unfold Device.write
  simp only [h, if_true]

theorem flush_ok {r : Recording} (h : r.flush.failed = false) :
    r.failed = false ∧ r.flush.held = [] ∧ r.flush.device.data = r.sent := by
  unfold flush at h ⊢
  split
  · rename_i hc
    rw [if_pos hc] at h
    have he : r.held = [] := by simpa [h] using hc
    refine ⟨h, he, ?_⟩
    rw [sent, he, List.reverse_nil, List.flatMap_nil, List.append_nil]
  · rename_i hc
    rw [if_neg hc] at h
    split at h
    · rename_i d hd
      obtain rfl := write_ok hd
      exact ⟨h, rfl, rfl⟩
    · cases h

theorem sent_flush {r : Recording} (h : r.flush.failed = false) : r.flush.sent = r.sent := by
  obtain ⟨-, hheld, hdata⟩ := flush_ok h
  rw [sent, hheld, hdata, List.reverse_nil, List.flatMap_nil, List.append_nil]

/-- the recording with room for one more record -/
def ready (r : Recording) : Recording := if r.held.length = heldRecords then r.flush else r

theorem record_eq {r : Recording} (h : r.failed = false) (x : Record) :
    r.record x = if r.ready.failed then r.ready else { r.ready with held := x :: r.ready.held } :=
  if_neg (by simp [h])

theorem sent_ready {r : Recording} (h : r.ready.failed = false) : r.ready.sent = r.sent := by
  unfold ready at h ⊢
  split
  · rename_i hfull
    rw [if_pos hfull] at h
    exact sent_flush h
  · rfl

theorem record_ok {r : Recording} {x : Record} (h : (r.record x).failed = false) :
    r.failed = false ∧ (r.record x).sent = r.sent ++ recordBytes x := by
  have hr : r.failed = false := by
    cases hf : r.failed with
    | false => rfl
    | true =>
      rw [record, if_pos hf, hf] at h
      cases h
  rw [record_eq hr] at h ⊢
  split at h
  · rename_i hf
    exact absurd (hf.symm.trans h) nofun
  · rename_i hf
    rw [if_neg hf, ← sent_ready h]
    refine ⟨hr, ?_⟩
    unfold sent
    rw [List.reverse_cons, List.flatMap_append, List.flatMap_singleton, List.append_assoc]

theorem records_ok {r : Recording} {xs : List Record} (h : (xs.foldl record r).failed = false) :
    r.failed = false ∧ (xs.foldl record r).sent = r.sent ++ xs.flatMap recordBytes := by
  induction xs generalizing r with
  | nil => exact ⟨h, by rw [List.flatMap_nil, List.append_nil]; rfl⟩
  | cons x xs ih =>
    obtain ⟨hx, hs⟩ := ih h
    obtain ⟨hr, hs'⟩ := record_ok hx
    exact ⟨hr, by rw [List.foldl_cons, hs, hs', List.flatMap_cons, List.append_assoc]⟩

/-- a device without a limit takes everything -/
structure Roomy (r : Recording) : Prop where
  limit : r.device.limit = none
  failed : r.failed = false

theorem Roomy.flush {r : Recording} (h : r.Roomy) : r.flush.Roomy := by
  unfold Recording.flush
  split
  · exact h
  · rw [write_unlimited h.limit]
    exact ⟨h.limit, h.failed⟩

theorem Roomy.ready {r : Recording} (h : r.Roomy) : r.ready.Roomy := by
  unfold Recording.ready
  split
  · exact h.flush
  · exact h

theorem Roomy.record {r : Recording} (h : r.Roomy) (x : Record) : (r.record x).Roomy := by
  rw [record_eq h.failed, h.ready.failed, if_neg Bool.false_ne_true]
  exact ⟨h.ready.limit, h.ready.failed⟩

theorem Roomy.records {r : Recording} (h : r.Roomy) (xs : List Record) :
    (xs.foldl Recording.record r).Roomy := by
  induction xs generalizing r with
  | nil => exact h
  | cons x xs ih => exact ih (h.record x)

end Recording

/-! ## from start to close -/

def preamble (t : KindTable) : List UInt8 :=
  headerBytes t.encode.length ++ t.encode ++ List.replicate (padding t.encode.length) 0

theorem writePreamble_ok {t : KindTable} {d d' : Device} (h : writePreamble t d = (d', .ok ())) :
    d' = { d with data := d.data ++ preamble t } := by
  unfold writePreamble at h
  simp only at h
  split at h
  · cases h
  · rename_i d1 h1
    split at h
    · cases h
    · rename_i d2 h2
      split at h
      · cases h
      · rename_i d3 h3
        cases h
        obtain rfl := Recording.write_ok h1
        obtain rfl := Recording.write_ok h2
        obtain rfl := Recording.write_ok h3
        unfold preamble
        simp only [List.append_assoc]

theorem writePreamble_unlimited {d : Device} (h : d.limit = none) (t : KindTable) :
    writePreamble t d = ({ d with data := d.data ++ preamble t }, .ok ()) := by
  unfold writePreamble preamble
  simp only [Recording.write_unlimited, h, List.append_assoc]

namespace Recorder

/-- a recording at its start -/
def opened (s : Recorder) (d : Device) : Recording :=
  { device := { d with data := d.data ++ preamble (.ofKinds s.kinds) } }

theorem start_ok {s : Recorder} {d : Device} (h : (s.start d).2 = .ok ()) :
    (s.start d).1.current = some s.started.size ∧
      (s.start d).1.started[s.started.size]? = some (s.opened d, true) := by
  unfold start at h ⊢
  split
  · rename_i hr
    rw [if_pos hr] at h
    cases h
  · rename_i hr
    rw [if_neg hr] at h
    split at h
    · cases h
    · rename_i d' hw
      obtain rfl := writePreamble_ok hw
      exact ⟨rfl, Array.getElem?_push_size⟩

theorem start_unlimited {s : Recorder} {d : Device} (hs : s.current = none) (hd : d.limit = none) :
    (s.start d).2 = .ok () := by
  have hr : ¬ s.isRecording = true := by
    rw [isRecording, hs]
    exact Bool.false_ne_true
  unfold start
  rw [if_neg hr, writePreamble_unlimited hd]

theorem records_current {s : Recorder} {i : Nat} {r : Recording} (hc : s.current = some i)
    (hr : s.started[i]? = some (r, true)) (xs : List Record) :
    (xs.foldl record s).current = some i ∧
      (xs.foldl record s).started[i]? = some (xs.foldl Recording.record r, true) := by
  induction xs generalizing s r with
  | nil => exact ⟨hc, hr⟩
  | cons x xs ih =>
    have e : s.record x = { s with started := s.started.modify i fun p => (p.1.record x, p.2) } := by
      unfold record
      rw [hc]
    refine ih (s := s.record x) (r := r.record x) ?_ ?_
    · rw [e]
      exact hc
    · rw [e, Array.getElem?_modify, if_pos rfl, hr]
      rfl

theorem close_current {s : Recorder} {i : Nat} {r : Recording} (hc : s.current = some i)
    (hr : s.started[i]? = some (r, true)) :
    (s.close i).1.started[i]? = some (r.flush, true) ∧
      (s.close i).2 = some (if r.flush.failed then .error .write else .ok ()) := by
  unfold close
  simp only [hr, hc, ne_eq, not_true_eq_false, if_false, and_true]
  rw [Array.getElem?_setIfInBounds_self, if_pos (Array.getElem?_eq_some_iff.mp hr).1]

/-- a recording from start to close: what the start and the close report, and what is left -/
theorem recorded (s : Recorder) (d : Device) (xs : List Record) (hs : (s.start d).2 = .ok ()) :
    let closed := (xs.foldl record (s.start d).1).close s.started.size
    (closed.2 = some (.ok ()) → ∃ r, closed.1.started[s.started.size]? = some (r, true) ∧
      r.device.data = d.data ++ preamble (.ofKinds s.kinds) ++ xs.flatMap recordBytes) ∧
    (d.limit = none → closed.2 = some (.ok ())) := by
  obtain ⟨hc, hr⟩ := start_ok hs
  obtain ⟨hc, hr⟩ := records_current hc hr xs
  obtain ⟨hr, hclose⟩ := close_current hc hr
  intro closed
  refine ⟨fun hok => ⟨_, hr, ?_⟩, fun hd => ?_⟩
  · have hf : (xs.foldl Recording.record (s.opened d)).flush.failed = false := by
      rw [show closed.2 = _ from hclose] at hok
      split at hok
      · cases hok
      · rename_i hf
        exact Bool.eq_false_iff.mpr hf
    obtain ⟨hf', -, hdata⟩ := Recording.flush_ok hf
    rw [hdata, (Recording.records_ok hf').2]
    unfold Recording.sent opened
    rw [List.reverse_nil, List.flatMap_nil, List.append_nil]
  · have hroom : (s.opened d).Roomy := ⟨hd, rfl⟩
    rw [show closed.2 = _ from hclose, (hroom.records xs).flush.failed]
    rfl

end Recorder

/-! ## round trip -/

/-- the bytes are a trace of the samples `calls`, which is read as far as it goes -/
structure ReadsBack (ks : List Kind) (calls : List (Call ks)) (bytes : List UInt8) : Prop where
  layout : bytes = headerBytes (KindTable.ofKinds ks).encode.length ++ (KindTable.ofKinds ks).encode ++
    List.replicate (padding (KindTable.ofKinds ks).encode.length) 0 ++
      (calls.map Call.record).flatMap recordBytes
  /-- records start at a multiple of 512 bytes -/
  aligned : 512 ∣ headerSize + (KindTable.ofKinds ks).encode.length +
    padding (KindTable.ofKinds ks).encode.length
  whole : read bytes = (calls.map Call.sample, none)
  /-- a cut between or inside records leaves the records before it -/
  records : ∀ n ≤ recordSize * calls.length,
    read (bytes.take (headerSize + (KindTable.ofKinds ks).encode.length +
        padding (KindTable.ofKinds ks).encode.length + n)) =
      ((calls.take (n / recordSize)).map Call.sample,
        if n % recordSize = 0 then none else some .recordCut)
  padding : ∀ n < padding (KindTable.ofKinds ks).encode.length,
    read (bytes.take (headerSize + (KindTable.ofKinds ks).encode.length + n)) = ([], some .padding)
  header : ∀ n < headerSize, read (bytes.take n) = ([], some (.header (decide (n = 0))))

theorem dvd_padding (n : Nat) : 512 ∣ headerSize + n + padding n := by
  unfold padding alignment
  omega

theorem take_preamble (t : KindTable) (body : List UInt8) (k : Nat) :
    (headerBytes t.encode.length ++ (t.encode ++ body)).take (headerSize + t.encode.length + k) =
      headerBytes t.encode.length ++ (t.encode ++ body.take k) := by
  have hlen : (headerBytes t.encode.length ++ t.encode).length = headerSize + t.encode.length := by
    rw [List.length_append, length_headerBytes]
  rw [← List.append_assoc, ← hlen, List.take_length_add_append, List.append_assoc]

theorem take_zeros (k n : Nat) (bs : List UInt8) :
    (List.replicate k 0 ++ bs).take (k + n) = List.replicate k 0 ++ bs.take n := by
  rw [List.take_append, List.length_replicate, List.take_of_length_le, Nat.add_sub_cancel_left]
  rw [List.length_replicate]
  omega

/-- **A trace reads back**, whole or cut. -/
theorem readsBack {ks : List Kind} (h : (KindTable.ofKinds ks).encode.length < 2 ^ 32)
    (calls : List (Call ks)) : ReadsBack ks calls
      (preamble (.ofKinds ks) ++ (calls.map Call.record).flatMap recordBytes) := by
  obtain ⟨t, ht, hread⟩ := read_preamble h
  obtain ⟨table, htable⟩ : ∃ table, KindTable.ofKinds ks = table := ⟨_, rfl⟩
  rw [htable] at h hread ⊢
  have hlayout : preamble table ++ (calls.map Call.record).flatMap recordBytes =
      headerBytes table.encode.length ++ (table.encode ++
        (List.replicate (padding table.encode.length) 0 ++
          (calls.map Call.record).flatMap recordBytes)) := by
    unfold preamble
    simp only [List.append_assoc]
  have hzeros : (List.replicate (padding table.encode.length) (0 : UInt8)).length =
      padding table.encode.length := List.length_replicate
  have hrecords : ∀ n ≤ recordSize * calls.length,
      read ((preamble table ++ (calls.map Call.record).flatMap recordBytes).take
          (headerSize + table.encode.length + padding table.encode.length + n)) =
        ((calls.take (n / recordSize)).map Call.sample,
          if n % recordSize = 0 then none else some .recordCut) := by
    intro n hn
    rw [hlayout, Nat.add_assoc, take_preamble, take_zeros, hread,
      if_neg (by rw [List.length_append, hzeros]; omega), List.drop_left' hzeros,
      readRecords_take ht calls hn]
  refine
    { layout := ?layout, aligned := dvd_padding _, whole := ?whole, records := ?records
      padding := ?padding, header := ?header }
  case layout => rw [htable, hlayout]; simp only [List.append_assoc]
  case records => rw [htable]; exact hrecords
  case whole =>
    have hall := hrecords (recordSize * calls.length) (Nat.le_refl _)
    rw [List.take_of_length_le, Nat.mul_mod_right, if_pos rfl,
      Nat.mul_div_cancel_left _ (by decide), List.take_length] at hall
    · exact hall
    · rw [hlayout, List.length_append, List.length_append, List.length_append, length_headerBytes,
        hzeros, length_records, List.length_map]
      omega
  case padding =>
    intro n hn
    rw [htable] at hn ⊢
    rw [hlayout, take_preamble, hread, if_pos]
    rw [List.length_take]
    omega
  case header =>
    intro n hn
    rw [hlayout]
    generalize hbody : headerBytes table.encode.length ++ _ = bytes
    have hlen : headerSize ≤ bytes.length := by
      rw [← hbody, List.length_append, length_headerBytes]
      omega
    rw [read_short (by rw [List.length_take]; omega)]
    cases n with
    | zero => rfl
    | succ n =>
      cases bytes with
      | nil => exact absurd hlen (by decide)
      | cons b bytes => rfl

/-- **What was recorded reads back.**  A trace that is written on an empty device from start to
close gives one sample for each record, in order, with the name and the flags of its kind; a trace
that is cut gives the samples before the cut and a fault.  On a device without a limit every start
without another recording goes well, and so does its end. -/
theorem recorded_reads_back (s : Recorder) (d : Device) (calls : List (Call s.kinds))
    (htable : (KindTable.ofKinds s.kinds).encode.length < 2 ^ 32) (hempty : d.data = []) :
    let started := s.start d
    let closed := ((calls.map Call.record).foldl Recorder.record started.1).close s.started.size
    (started.2 = .ok () → closed.2 = some (.ok ()) → ∃ r,
      closed.1.started[s.started.size]? = some (r, true) ∧ ReadsBack s.kinds calls r.device.data) ∧
    (s.current = none → d.limit = none → started.2 = .ok () ∧ closed.2 = some (.ok ())) := by
  intro started closed
  refine ⟨fun hs hc => ?_, fun hs hd => ?_⟩
  · obtain ⟨r, hr, hdata⟩ := (s.recorded d (calls.map Call.record) hs).1 hc
    refine ⟨r, hr, ?_⟩
    rw [hdata, hempty, List.nil_append]
    exact readsBack htable calls
  · have hok := Recorder.start_unlimited hs hd
    exact ⟨hok, (s.recorded d _ hok).2 hd⟩

def twoKinds : List Kind := [⟨"plain", .compile⟩, ⟨"<naïve>\n\"時間\"", ⟨3⟩⟩]

/-- a trace of two samples, one of them of a negative time -/
theorem recorded_reads_back_twoKinds :
    let s : Recorder := { kinds := twoKinds }
    let calls : List (Call twoKinds) := [(⟨1, by decide⟩, -5), (⟨0, by decide⟩, 7)]
    let closed := ((calls.map Call.record).foldl Recorder.record (s.start {}).1).close 0
    (KindTable.ofKinds twoKinds).encode.length < 2 ^ 32 ∧ (s.start {}).2 = .ok () ∧
      closed.2 = some (.ok ()) ∧
      ∃ r, closed.1.started[0]? = some (r, true) ∧ ReadsBack twoKinds calls r.device.data := by
  intro s calls closed
  have hsorted : (KindTable.ofKinds twoKinds).sorted = KindTable.ofKinds twoKinds :=
    List.mergeSort_of_pairwise (by decide)
  have hlen : (KindTable.ofKinds twoKinds).encode.length < 2 ^ 32 := by
    rw [KindTable.encode_eq, hsorted]
    decide +kernel
  obtain ⟨h, hok⟩ := recorded_reads_back s {} calls hlen rfl
  obtain ⟨hs, hc⟩ := hok rfl rfl
  exact ⟨hlen, hs, hc, h hs hc⟩

end TreeJit.Trace
