import Mathlib.Algebra.BigOperators.Group.List.Basic
import Mathlib.Algebra.Ring.Int.Defs
import Mathlib.Data.List.Induction
import TreeJit.Proofs.Trace.Records
import TreeJit.Trace.Total

/-!
# What a summary says

A summary has one total for each name that occurs in a trace, and the total is about all samples of
that name, whatever numbers their records had.  Since names differ and the order looks at sums and
names only, no two totals are in the same place, and the order of the records does not matter but for
the flags, which are those of the first sample.

* `Total.Covers`         a total of given durations;
* `Tallies`              totals of samples: a name for each total, a total for each name;
* `tallies_totalsOf`     adding samples one by one keeps that;
* `pairwise_above`       the order of a summary;
* `Tallies.perm`         totals of the same samples in another order;
* `summarize_tallies`    summaries of traces.
-/

namespace TreeJit.Trace

/-! ## one total -/

def durations (ss : List Sample) (name : String) : List Int64 :=
  (ss.filter fun s => s.name = name).map Sample.duration

/-- the number, the sum and the longest of these durations -/
structure Total.Covers (t : Total) (ds : List Int64) : Prop where
  count : t.count = Int64.ofNat ds.length
  /-- the sum wraps -/
  sum : t.sum = Int64.ofInt (ds.map Int64.toInt).sum
  /-- no duration counts as zero -/
  max_mem : t.max ∈ 0 :: ds
  le_max : ∀ d ∈ 0 :: ds, d ≤ t.max

theorem Total.covers_empty (name : String) (flags : Flags) : (Total.empty name flags).Covers [] :=
  ⟨rfl, rfl, List.mem_cons_self, fun d hd => by rw [List.mem_singleton.mp hd]; exact Int64.le_refl 0⟩

theorem Total.Covers.add {t : Total} {ds : List Int64} (h : t.Covers ds) (d : Int64) :
    (t.add d).Covers (ds ++ [d]) := by
  refine ⟨?_, ?_, ?_, ?_⟩
  · show t.count + 1 = _
    rw [h.count, List.length_append, Int64.ofNat_add]
    rfl
  · show t.sum + d = _
    rw [h.sum, List.map_append, List.sum_append, Int64.ofInt_add]
    simp [Int64.ofInt_toInt]
  · show (if t.max < d then d else t.max) ∈ 0 :: (ds ++ [d])
    rw [← List.cons_append]
    split
    · exact List.mem_append_right _ List.mem_cons_self
    · exact List.mem_append_left _ h.max_mem
  · intro x hx
    show x ≤ if t.max < d then d else t.max
    rw [← List.cons_append] at hx
    rcases List.mem_append.mp hx with hx | hx
    · have hle := h.le_max x hx
      split
      · rename_i hlt
        exact Int64.le_trans hle (Int64.le_of_lt hlt)
      · exact hle
    · rw [List.mem_singleton.mp hx]
      split
      · exact Int64.le_refl d
      · rename_i hlt
        exact Int64.not_lt.mp hlt

def Total.unflagged (t : Total) : Total := { t with flags := ⟨0⟩ }

/-- totals of the same durations, in any order, differ in their flags only -/
theorem Total.Covers.unique {t t' : Total} {ds ds' : List Int64} (h : t.Covers ds)
    (h' : t'.Covers ds') (hp : ds.Perm ds') (hn : t.name = t'.name) : t.unflagged = t'.unflagged := by
  have hcount : t.count = t'.count := by rw [h.count, h'.count, hp.length_eq]
  have hsum : t.sum = t'.sum := by rw [h.sum, h'.sum, (hp.map Int64.toInt).sum_eq]
  have hmax : t.max = t'.max := Int64.le_antisymm
    (h'.le_max _ ((hp.cons 0).mem_iff.mp h.max_mem)) (h.le_max _ ((hp.cons 0).mem_iff.mpr h'.max_mem))
  unfold unflagged
  rw [hn, hcount, hsum, hmax]

/-! ## all totals -/

/-- one total for each name that occurs, and it is about the samples of that name -/
structure Tallies (ts : List Total) (ss : List Sample) : Prop where
  nodup : (ts.map Total.name).Nodup
  names : ∀ n, n ∈ ts.map Total.name ↔ n ∈ ss.map Sample.name
  covers : ∀ t ∈ ts, t.Covers (durations ss t.name)

theorem durations_concat (ss : List Sample) (s : Sample) (n : String) :
    durations (ss ++ [s]) n = durations ss n ++ if s.name = n then [s.duration] else [] := by
  unfold durations
  rw [List.filter_append, List.map_append]
  congr 1
  by_cases h : s.name = n <;> simp [h]

theorem durations_eq_nil {ss : List Sample} {n : String} (h : n ∉ ss.map Sample.name) :
    durations ss n = [] := by
  unfold durations
  rw [List.map_eq_nil_iff, List.filter_eq_nil_iff]
  intro s hs he
  exact h (List.mem_map.mpr ⟨s, hs, of_decide_eq_true he⟩)

theorem addSample_cases (s : Sample) (ts : List Total) :
    (∃ (as : List Total) (t : Total) (bs : List Total), ts = as ++ t :: bs ∧ t.name = s.name ∧
      addSample s ts = as ++ t.add s.duration :: bs) ∨
    s.name ∉ ts.map Total.name ∧
      addSample s ts = ts ++ [(Total.empty s.name s.flags).add s.duration] := by
  induction ts with
  | nil => exact .inr ⟨nofun, rfl⟩
  | cons t ts ih =>
    by_cases h : t.name = s.name
    · exact .inl ⟨[], t, ts, rfl, h, if_pos h⟩
    · have hstep : addSample s (t :: ts) = t :: addSample s ts := if_neg h
      rw [hstep]
      obtain ⟨as, t', bs, rfl, hn, e⟩ | ⟨hn, e⟩ := ih
      · exact .inl ⟨t :: as, t', bs, rfl, hn, by rw [e]; rfl⟩
      · refine .inr ⟨?_, by rw [e]; rfl⟩
        exact fun hm => (List.mem_cons.mp hm).elim (fun e => h e.symm) hn

/-- **Adding a sample** keeps a total for each name. -/
theorem Tallies.addSample {ts : List Total} {ss : List Sample} (h : Tallies ts ss) (s : Sample) :
    Tallies (addSample s ts) (ss ++ [s]) := by
  have hother : ∀ t ∈ ts, t.name ≠ s.name → t.Covers (durations (ss ++ [s]) t.name) := by
    intro t ht hne
    rw [durations_concat, if_neg fun e => hne e.symm, List.append_nil]
    exact h.covers t ht
  obtain ⟨as, t, bs, rfl, hn, e⟩ | ⟨hn, e⟩ := addSample_cases s ts
  · -- the names are the old ones
    have hmap : (Trace.addSample s (as ++ t :: bs)).map Total.name =
        (as ++ t :: bs).map Total.name := by
      rw [e, List.map_append, List.map_append]
      rfl
    have hnd := h.nodup
    rw [List.map_append, List.map_cons, List.nodup_append, List.nodup_cons] at hnd
    refine ⟨hmap ▸ h.nodup, fun n => ?_, fun u hu => ?_⟩
    · rw [hmap, h.names, List.map_append, List.mem_append]
      refine ⟨.inl, fun hm => hm.elim id fun hm => ?_⟩
      rw [List.mem_singleton.mp hm, ← hn, ← h.names]
      exact List.mem_map_of_mem (List.mem_append_right as List.mem_cons_self)
    · rw [e] at hu
      rcases List.mem_append.mp hu with hu | hu
      · refine hother u (List.mem_append_left _ hu) fun hun => ?_
        exact hnd.2.2 _ (List.mem_map_of_mem hu) _ List.mem_cons_self (hun.trans hn.symm)
      · rcases List.mem_cons.mp hu with rfl | hu
        · have hc := (h.covers t (List.mem_append_right as List.mem_cons_self)).add s.duration
          show Total.Covers _ (durations (ss ++ [s]) t.name)
          rw [durations_concat, if_pos hn.symm]
          exact hc
        · refine hother u (List.mem_append_right as (List.mem_cons_of_mem t hu)) fun hun => ?_
          exact hnd.2.1.1 ((hn.trans hun.symm) ▸ List.mem_map_of_mem hu)
  · have hnew : s.name ∉ ss.map Sample.name := fun hm => hn ((h.names _).mpr hm)
    refine ⟨?_, fun n => ?_, fun u hu => ?_⟩
    · rw [e, List.map_append]
      refine List.nodup_append.mpr ⟨h.nodup, List.nodup_singleton _, fun a ha b hb hab => ?_⟩
      have hb' : b = s.name := List.mem_singleton.mp hb
      exact hn (hb' ▸ hab ▸ ha)
    · rw [e, List.map_append, List.map_append, List.mem_append, List.mem_append, h.names]
      rfl
    · rw [e] at hu
      rcases List.mem_append.mp hu with hu | hu
      · exact hother u hu fun hun => hn (hun ▸ List.mem_map_of_mem hu)
      · rw [List.mem_singleton.mp hu]
        show Total.Covers _ (durations (ss ++ [s]) s.name)
        rw [durations_concat, if_pos rfl, durations_eq_nil hnew]
        exact (Total.covers_empty s.name s.flags).add s.duration

/-- **The totals of samples**, by induction on the samples from the last one on. -/
theorem tallies_totalsOf (ss : List Sample) : Tallies (totalsOf ss) ss := by
  induction ss using List.reverseRecOn with
  | nil => exact ⟨List.nodup_nil, fun _ => Iff.rfl, nofun⟩
  | append_singleton ss s ih =>
    unfold totalsOf
    rw [List.foldl_append]
    exact ih.addSample s

theorem Tallies.of_perm {ts ts' : List Total} {ss : List Sample} (h : Tallies ts ss)
    (hp : ts'.Perm ts) : Tallies ts' ss :=
  ⟨(hp.map Total.name).nodup_iff.mpr h.nodup, fun n => (hp.map Total.name).mem_iff.trans (h.names n),
    fun t ht => h.covers t (hp.mem_iff.mp ht)⟩

/-! ## the order -/

/-- `a` has its place in front of `b` -/
def Total.Above (a b : Total) : Prop := b.sum < a.sum ∨ a.sum = b.sum ∧ a.name < b.name

theorem Total.before_iff {a b : Total} :
    a.before b = true ↔ b.sum < a.sum ∨ a.sum = b.sum ∧ a.name ≤ b.name := by
  unfold before
  by_cases h : a.sum = b.sum
  · simp [h, Int64.lt_irrefl]
  · simp [h]

theorem Total.before_trans (a b c : Total) (h : a.before b = true) (h' : b.before c = true) :
    a.before c = true := by
  rw [before_iff] at h h' ⊢
  obtain h | ⟨h, hn⟩ := h
  · obtain h' | ⟨h', -⟩ := h'
    · exact .inl (Int64.lt_trans h' h)
    · exact .inl (h' ▸ h)
  · obtain h' | ⟨h', hn'⟩ := h'
    · exact .inl (h ▸ h')
    · exact .inr ⟨h.trans h', String.le_trans hn hn'⟩

theorem Total.before_total (a b : Total) : (a.before b || b.before a) = true := by
  rw [Bool.or_eq_true, before_iff, before_iff]
  rcases Int.lt_trichotomy a.sum.toInt b.sum.toInt with h | h | h
  · exact .inr (.inl (Int64.lt_iff_toInt_lt.mpr h))
  · have he : a.sum = b.sum := Int64.toInt_inj.mp h
    exact (String.le_total a.name b.name).imp (fun hn => .inr ⟨he, hn⟩) fun hn => .inr ⟨he.symm, hn⟩
  · exact .inl (.inl (Int64.lt_iff_toInt_lt.mpr h))

/-- **Totals are strictly in order**: their names differ. -/
theorem pairwise_above {ts : List Total} (h : (ts.map Total.name).Nodup) :
    (ts.mergeSort Total.before).Pairwise Total.Above := by
  have hs := List.pairwise_mergeSort Total.before_trans Total.before_total ts
  have hn : (ts.mergeSort Total.before).Pairwise fun a b => a.name ≠ b.name :=
    List.pairwise_map.mp (((List.mergeSort_perm ts _).map Total.name).nodup_iff.mpr h)
  refine hs.imp₂ (fun a b hab hne => ?_) hn
  obtain hlt | ⟨he, hle⟩ := Total.before_iff.mp hab
  · exact .inl hlt
  · exact .inr ⟨he, String.not_le.mp fun hge => hne (String.le_antisymm hle hge)⟩

theorem Total.Above.asymm {a b : Total} (h : a.Above b) (h' : b.Above a) : False := by
  obtain h | ⟨he, hn⟩ := h
  · obtain h' | ⟨he', -⟩ := h'
    · exact Int64.lt_irrefl (Int64.lt_trans h h')
    · rw [he'] at h
      exact Int64.lt_irrefl h
  · obtain h' | ⟨-, hn'⟩ := h'
    · rw [he] at h'
      exact Int64.lt_irrefl h'
    · exact String.lt_irrefl _ (String.lt_trans hn hn')

/-! ## samples in another order -/

theorem durations_perm {ss ss' : List Sample} (h : ss.Perm ss') (n : String) :
    (durations ss n).Perm (durations ss' n) := (h.filter _).map _

theorem Tallies.mem_unflagged {ts ts' : List Total} {ss ss' : List Sample} (h : Tallies ts ss)
    (h' : Tallies ts' ss') (hp : ss.Perm ss') {u : Total} (hu : u ∈ ts.map Total.unflagged) :
    u ∈ ts'.map Total.unflagged := by
  obtain ⟨t, ht, rfl⟩ := List.mem_map.mp hu
  have hn : t.name ∈ ts'.map Total.name := by
    rw [h'.names, ← (hp.map Sample.name).mem_iff, ← h.names]
    exact List.mem_map_of_mem ht
  obtain ⟨t', ht', hname⟩ := List.mem_map.mp hn
  have hc := h'.covers t' ht'
  rw [hname] at hc
  exact List.mem_map.mpr ⟨t', ht', (hc.unique (h.covers t ht) (durations_perm hp _).symm hname)⟩

/-- **The order of the samples does not matter**, neither for the totals nor for their places. -/
theorem Tallies.perm {ts ts' : List Total} {ss ss' : List Sample} (h : Tallies ts ss)
    (h' : Tallies ts' ss') (hp : ss.Perm ss') (hs : ts.Pairwise Total.Above)
    (hs' : ts'.Pairwise Total.Above) : ts.map Total.unflagged = ts'.map Total.unflagged := by
  have hnodup : ∀ us ss, Tallies us ss → (us.map Total.unflagged).Nodup := by
    intro us ss hu
    refine List.Nodup.of_map Total.name ?_
    rw [List.map_map]
    exact hu.nodup
  have hperm : (ts.map Total.unflagged).Perm (ts'.map Total.unflagged) :=
    (List.perm_ext_iff_of_nodup (hnodup ts ss h) (hnodup ts' ss' h')).mpr fun u =>
      ⟨h.mem_unflagged h' hp, h'.mem_unflagged h hp.symm⟩
  have hsorted : ∀ us : List Total, us.Pairwise Total.Above →
      (us.map Total.unflagged).Pairwise Total.Above := fun us hu =>
    List.pairwise_map.mpr hu
  exact hperm.eq_of_pairwise (fun a b _ _ hab hba => (hab.asymm hba).elim) (hsorted ts hs)
    (hsorted ts' hs')

/-! ## summaries -/

theorem summarize_eq {bs : List UInt8} {ss : List Sample} (h : read bs = (ss, none)) :
    summarize bs = .ok ((totalsOf ss).mergeSort Total.before) := by
  unfold summarize
  rw [h]

theorem summarize_read {bs : List UInt8} {ss : List Sample} (h : read bs = (ss, none)) :
    ∃ ts, summarize bs = .ok ts ∧ Tallies ts ss ∧ ts.Pairwise Total.Above :=
  ⟨_, summarize_eq h, (tallies_totalsOf ss).of_perm (List.mergeSort_perm ..),
    pairwise_above (tallies_totalsOf ss).nodup⟩

/-- **A summary loses and invents nothing.**  A trace that cannot be read to its end has none.  Any
other trace has one total for each name that occurs, about all samples with the name, strictly in order
of falling sums and then of names; and with the same records in any other order the trace is read as
well and its summary is the same but for the flags. -/
theorem summarize_tallies (bs : List UInt8) :
    (∀ f, (read bs).2 = some f → summarize bs = .error f) ∧
    ∀ ss, read bs = (ss, none) → ∃ ts, summarize bs = .ok ts ∧ Tallies ts ss ∧
      ts.Pairwise Total.Above ∧
      ∃ (t : KindTable) (front : List UInt8) (rs : List Record),
        bs = front ++ rs.flatMap recordBytes ∧ samplesOf t rs = (ss, none) ∧
        ∀ rs', rs.Perm rs' → ∃ ts', summarize (front ++ rs'.flatMap recordBytes) = .ok ts' ∧
          ts'.map Total.unflagged = ts.map Total.unflagged := by
  refine ⟨fun f hf => ?_, fun ss hss => ?_⟩
  · unfold summarize
    rcases hr : read bs with ⟨ss, g⟩
    rw [hr] at hf
    cases hf
    rfl
  · obtain ⟨ts, hts, htally, hsorted⟩ := summarize_read hss
    obtain ⟨t, front, rs, hbs, hrs, hread⟩ := read_records hss
    refine ⟨ts, hts, htally, hsorted, t, front, rs, hbs, hrs, fun rs' hp => ?_⟩
    obtain ⟨ss', hrs', hpss⟩ := samplesOf_perm hp hrs
    obtain ⟨ts', hts', htally', hsorted'⟩ :=
      summarize_read ((hread rs' hp.length_eq.symm).trans hrs')
    exact ⟨ts', hts', htally'.perm htally hpss.symm hsorted' hsorted⟩

def sharedTable : List UInt8 := utf8Bytes
  ("\x7b\"1\":\x7b\"Name\":\"b\",\"Flags\":1\x7d,\"2\":\x7b\"Name\":\"a\",\"Flags\":2\x7d,"
    ++ "\"3\":\x7b\"Name\":\"b\",\"Flags\":2\x7d\x7d")

def sharedTrace (rs : List Record) : List UInt8 :=
  headerBytes sharedTable.length ++
    (sharedTable ++ (List.replicate (padding sharedTable.length) 0 ++ rs.flatMap recordBytes))

/-- two kinds named b with the sum 4 between them, and one named a with as much -/
theorem summarize_tallies_sharedName :
    let bs := sharedTrace [⟨3, -5⟩, ⟨2, 4⟩, ⟨1, 9⟩]
    let ss : List Sample := [⟨"b", ⟨2⟩, -5⟩, ⟨"a", ⟨2⟩, 4⟩, ⟨"b", ⟨1⟩, 9⟩]
    read bs = (ss, none) ∧ (read (bs.take 20)).2 = some .table ∧
      summarize (bs.take 20) = .error .table ∧
      ∃ ts, summarize bs = .ok ts ∧ Tallies ts ss ∧ ts.Pairwise Total.Above := by
  intro bs ss
  have hread : read bs = (ss, none) := by decide +kernel
  have hcut : (read (bs.take 20)).2 = some .table := by decide +kernel
  obtain ⟨ts, hts, htally, hsorted, -⟩ := (summarize_tallies bs).2 ss hread
  exact ⟨hread, hcut, (summarize_tallies _).1 _ hcut, ts, hts, htally, hsorted⟩

end TreeJit.Trace
