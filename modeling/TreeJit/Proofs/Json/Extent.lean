import Mathlib.Data.List.TakeWhile
import TreeJit.Proofs.Json.Written

/-!
# How far reading looks

What is read at the start of a list of bytes is settled by the bytes it was read from: any other bytes
behind them, as many as before, give the same value and are left over.  A number alone has no end of its
own, so the byte behind it has to stay.

* `Local`, `Settled`, `Loose`   readers that look at the byte behind, at nothing behind, and also
                                readers that may read nothing;
* `stringBody_settled`          a string ends with its quote, and no character goes across it;
* `value_extent`                values, by the recursion of the reader;
* `read_extent`                 a value that is no number.
-/

namespace TreeJit.JsonValue

/-! ## readers -/

/-- as many bytes, with the same first one -/
structure Alike (r r' : List UInt8) : Prop where
  length : r'.length = r.length
  head : r'.head? = r.head?

theorem Alike.append {r r' : List UInt8} (p : List UInt8) (h : Alike r r') :
    Alike (p ++ r) (p ++ r') := by
  refine ⟨by rw [List.length_append, List.length_append, h.length], ?_⟩
  cases p with
  | nil => exact h.head
  | cons b p => rfl

theorem alike_append {p r r' : List UInt8} (hp : p ≠ []) (h : r'.length = r.length) :
    Alike (p ++ r) (p ++ r') := by
  refine ⟨by rw [List.length_append, List.length_append, h], ?_⟩
  cases p with
  | nil => exact absurd rfl hp
  | cons b p => rfl

section
variable {α β : Type}

/-- what is read is settled up to the byte behind it -/
def Local (parse : List UInt8 → Option (α × List UInt8)) : Prop :=
  ∀ ⦃bs a r⦄, parse bs = some (a, r) →
    ∃ p, bs = p ++ r ∧ ∀ r', Alike r r' → parse (p ++ r') = some (a, r')

/-- what is read is settled, also if nothing is -/
def Loose (parse : List UInt8 → Option (α × List UInt8)) : Prop :=
  ∀ ⦃bs a r⦄, parse bs = some (a, r) →
    ∃ p, bs = p ++ r ∧ ∀ r', r'.length = r.length → parse (p ++ r') = some (a, r')

/-- something is read, and it is settled -/
def Settled (parse : List UInt8 → Option (α × List UInt8)) : Prop :=
  ∀ ⦃bs a r⦄, parse bs = some (a, r) →
    ∃ p, p ≠ [] ∧ bs = p ++ r ∧ ∀ r', r'.length = r.length → parse (p ++ r') = some (a, r')

variable {f : List UInt8 → Option (α × List UInt8)} {g : α → List UInt8 → Option (β × List UInt8)}

theorem Settled.loose (h : Settled f) : Loose f := by
  intro bs a r e
  obtain ⟨p, -, hp⟩ := h e
  exact ⟨p, hp⟩

theorem Loose.local (h : Loose f) : Local f := by
  intro bs a r e
  obtain ⟨p, rfl, hp⟩ := h e
  exact ⟨p, rfl, fun r' hr => hp r' hr.length⟩

theorem loose_pure (a : α) : Loose fun bs => some (a, bs) := by
  intro bs a r e
  cases e
  exact ⟨[], rfl, fun _ _ => rfl⟩

theorem settled_none : Settled fun _ => (none : Option (α × List UInt8)) := fun _ _ _ e => nomatch e

theorem Local.bind (hf : Local f) (hg : ∀ a, Local (g a)) :
    Local fun bs => (f bs).bind fun x => g x.1 x.2 := by
  intro bs b r e
  obtain ⟨⟨a, r1⟩, h1, h2⟩ := Option.bind_eq_some_iff.mp e
  obtain ⟨p, rfl, hp⟩ := hf h1
  obtain ⟨q, rfl, hq⟩ := hg a h2
  refine ⟨p ++ q, (List.append_assoc ..).symm, fun r' hr => ?_⟩
  simp only [List.append_assoc, hp _ (hr.append q), Option.bind_some, hq r' hr]

theorem Local.bind_settled (hf : Local f) (hg : ∀ a, Settled (g a)) :
    Settled fun bs => (f bs).bind fun x => g x.1 x.2 := by
  intro bs b r e
  obtain ⟨⟨a, r1⟩, h1, h2⟩ := Option.bind_eq_some_iff.mp e
  obtain ⟨p, rfl, hp⟩ := hf h1
  obtain ⟨q, hne, rfl, hq⟩ := hg a h2
  refine ⟨p ++ q, by simp [hne], (List.append_assoc ..).symm, fun r' hr => ?_⟩
  simp only [List.append_assoc, hp _ (alike_append hne hr), Option.bind_some, hq r' hr]

theorem Settled.map (hf : Settled f) (k : α → β) :
    Settled fun bs => (f bs).map fun x => (k x.1, x.2) := by
  intro bs b r e
  obtain ⟨⟨a, r1⟩, h1, h2⟩ := Option.map_eq_some_iff.mp e
  cases h2
  obtain ⟨p, hne, rfl, hp⟩ := hf h1
  exact ⟨p, hne, rfl, fun r' hr => by simp only [hp r' hr, Option.map_some]⟩

/-- goes on in one way behind the byte `b`, and in another way if it is not there -/
def onByte (b : UInt8) (f g : List UInt8 → Option (α × List UInt8)) :
    List UInt8 → Option (α × List UInt8)
  | [] => g []
  | c :: r => if c = b then f r else g (c :: r)

variable {b : UInt8} {k : List UInt8 → Option (α × List UInt8)}

theorem onByte_self (r : List UInt8) : onByte b f k (b :: r) = f r := if_pos rfl

theorem onByte_other {bs : List UInt8} (h : bs.head? ≠ some b) : onByte b f k bs = k bs := by
  cases bs with
  | nil => rfl
  | cons c r => exact if_neg fun e => h (congrArg some e)

theorem head_ne {bs : List UInt8} (h : ∀ r, bs = b :: r → False) : bs.head? ≠ some b := by
  intro he
  obtain ⟨r, e⟩ := List.head?_eq_some_iff.mp he
  exact h r e

theorem onByte_cases (bs : List UInt8) :
    (∃ r, bs = b :: r ∧ onByte b f k bs = f r) ∨ bs.head? ≠ some b ∧ onByte b f k bs = k bs := by
  by_cases h : bs.head? = some b
  · obtain ⟨r, rfl⟩ := List.head?_eq_some_iff.mp h
    exact .inl ⟨r, rfl, onByte_self r⟩
  · exact .inr ⟨h, onByte_other h⟩

theorem Local.onByte (hf : Local f) (hk : Local k) : Local (onByte b f k) := by
  intro bs a r e
  obtain ⟨t, rfl, ht⟩ | ⟨hne, ht⟩ := onByte_cases (b := b) (f := f) (k := k) bs
  · obtain ⟨p, rfl, hp⟩ := hf (ht.symm.trans e)
    exact ⟨b :: p, rfl, fun r' hr => (onByte_self _).trans (hp r' hr)⟩
  · obtain ⟨p, rfl, hp⟩ := hk (ht.symm.trans e)
    exact ⟨p, rfl, fun r' hr => (onByte_other (by rwa [(hr.append p).head])).trans (hp r' hr)⟩

theorem Loose.onByte_settled (hf : Loose f) (hk : Settled k) : Settled (JsonValue.onByte b f k) := by
  intro bs a r e
  obtain ⟨t, rfl, ht⟩ | ⟨hne, ht⟩ := onByte_cases (b := b) (f := f) (k := k) bs
  · obtain ⟨p, rfl, hp⟩ := hf (ht.symm.trans e)
    exact ⟨b :: p, List.cons_ne_nil b p, rfl, fun r' hr => (onByte_self _).trans (hp r' hr)⟩
  · obtain ⟨p, hp, rfl, hr⟩ := hk (ht.symm.trans e)
    exact ⟨p, hp, rfl, fun r' hl =>
      (onByte_other (by rwa [(alike_append hp hl).head])).trans (hr r' hl)⟩

end

/-! ## spaces and words -/

theorem skipSpaces_local : Local fun bs => some ((), skipSpaces bs) := by
  intro bs a r e
  cases e
  refine ⟨bs.takeWhile isSpace, List.takeWhile_append_dropWhile.symm, fun r' hr => ?_⟩
  have hd : skipSpaces r' = r' := by
    cases r' with
    | nil => rfl
    | cons b r' =>
      have hb : isSpace b = false := by
        have h := List.head?_dropWhile_not isSpace bs
        unfold skipSpaces at hr
        rw [← hr.head] at h
        simpa using h
      exact List.dropWhile_cons_of_neg (by simp [hb])
  have hs : skipSpaces (bs.takeWhile isSpace ++ r') = skipSpaces r' :=
    List.dropWhile_append_of_pos fun b hb => List.mem_takeWhile_imp hb
  simp only [hs, hd]

section
variable {α : Type} {f : List UInt8 → Option (α × List UInt8)}

theorem Local.skip (hf : Local f) : Local fun bs => f (skipSpaces bs) :=
  skipSpaces_local.bind fun _ => hf

theorem Settled.skip (hf : Settled f) : Settled fun bs => f (skipSpaces bs) :=
  skipSpaces_local.bind_settled fun _ => hf

end

theorem afterWord_settled {w : String} (hw : w ≠ "") :
    Settled fun bs => (afterWord? w bs).map fun r => ((), r) := by
  intro bs a r e
  obtain ⟨r1, h1, h2⟩ := Option.map_eq_some_iff.mp e
  cases h2
  unfold afterWord? at h1
  split at h1
  · rename_i hpre
    cases h1
    obtain ⟨t, rfl⟩ := List.isPrefixOf_iff_prefix.mp hpre
    have hlen : (ascii w).length = w.length := by simp [ascii, String.length_toList]
    have hdrop : ∀ t, (ascii w ++ t).drop w.length = t := fun t => List.drop_left' hlen
    refine ⟨ascii w, ?_, by rw [hdrop], fun r' _ => ?_⟩
    · intro he
      rw [he] at hlen
      exact hw (String.length_eq_zero_iff.mp hlen.symm)
    · have hp : (ascii w).isPrefixOf (ascii w ++ r') = true :=
        List.isPrefixOf_iff_prefix.mpr (List.prefix_append ..)
      simp only [afterWord?, hp, if_true, hdrop, Option.map_some]
  · cases h1

/-! ## numbers -/

theorem digits_local : Local digits? := by
  intro bs ds r e
  simp only [digits?] at e
  split at e
  · cases e
  · rename_i hne
    cases e
    refine ⟨bs.takeWhile isDigit, List.takeWhile_append_dropWhile.symm, fun r' hr => ?_⟩
    have hin : ∀ b ∈ bs.takeWhile isDigit, isDigit b = true := fun b hb => List.mem_takeWhile_imp hb
    have hout : r'.takeWhile isDigit = [] ∧ r'.dropWhile isDigit = r' := by
      cases r' with
      | nil => exact ⟨rfl, rfl⟩
      | cons b r' =>
        have hb : isDigit b = false := by
          have h := List.head?_dropWhile_not isDigit bs
          rw [← hr.head] at h
          simpa using h
        exact ⟨List.takeWhile_cons_of_neg (by simp [hb]), List.dropWhile_cons_of_neg (by simp [hb])⟩
    have ht : (bs.takeWhile isDigit ++ r').takeWhile isDigit = bs.takeWhile isDigit := by
      rw [List.takeWhile_append_of_pos hin, hout.1, List.append_nil]
    have hd : (bs.takeWhile isDigit ++ r').dropWhile isDigit = r' := by
      rw [List.dropWhile_append_of_pos hin, hout.2]
    unfold digits?
    simp only [ht, hd, hne, if_false, Bool.false_eq_true]

theorem wholePart_eq : wholePart? = onByte 0x30 (fun r => some ([0x30], r)) digits? := by
  funext bs
  unfold wholePart?
  split
  · rw [onByte_self]
  · rename_i h
    rw [onByte_other (head_ne h)]

theorem fraction_eq : fraction? =
    onByte 0x2E (fun r => (digits? r).map fun x => (0x2E :: x.1, x.2)) fun bs => some ([], bs) := by
  funext bs
  unfold fraction?
  split
  · rw [onByte_self]
  · rename_i h
    rw [onByte_other (head_ne h)]

theorem Local.map {α β : Type} {f : List UInt8 → Option (α × List UInt8)} (hf : Local f) (k : α → β) :
    Local fun bs => (f bs).map fun x => (k x.1, x.2) := by
  intro bs b r e
  obtain ⟨⟨a, r1⟩, h1, h2⟩ := Option.map_eq_some_iff.mp e
  cases h2
  obtain ⟨p, rfl, hp⟩ := hf h1
  exact ⟨p, rfl, fun r' hr => by simp only [hp r' hr, Option.map_some]⟩

/-- the digits of an exponent with the mark in front, after a sign or without one -/
def exponentDigits (e : UInt8) : List UInt8 → Option (List UInt8 × List UInt8) :=
  onByte 0x2B (fun r => (digits? r).map fun x => (e :: 0x2B :: x.1, x.2)) <|
    onByte 0x2D (fun r => (digits? r).map fun x => (e :: 0x2D :: x.1, x.2)) fun r =>
      (digits? r).map fun x => (e :: x.1, x.2)

theorem exponentDigits_nil (e : UInt8) : exponentDigits e [] = none := rfl

theorem exponentDigits_cons (e s : UInt8) (r : List UInt8) : exponentDigits e (s :: r) =
    if s = 0x2B ∨ s = 0x2D then (digits? r).map fun x => (e :: s :: x.1, x.2)
    else (digits? (s :: r)).map fun x => (e :: x.1, x.2) := by
  by_cases h1 : s = 0x2B
  · simp [h1, exponentDigits, onByte]
  · by_cases h2 : s = 0x2D <;> simp [h1, h2, exponentDigits, onByte]

theorem exponent_eq : exponent? =
    onByte 0x65 (exponentDigits 0x65) (onByte 0x45 (exponentDigits 0x45) fun bs => some ([], bs)) := by
  funext bs
  unfold exponent?
  rcases bs with _ | ⟨e, _ | ⟨s, r⟩⟩
  · rfl
  · by_cases h1 : e = 0x65
    · simp [h1, onByte, exponentDigits_nil]
    · by_cases h2 : e = 0x45 <;> simp [h1, h2, onByte, exponentDigits_nil]
  · by_cases h1 : e = 0x65
    · simp [h1, onByte, exponentDigits_cons]
    · by_cases h2 : e = 0x45 <;> simp [h1, h2, onByte, exponentDigits_cons]

theorem exponentDigits_local (e : UInt8) : Local (exponentDigits e) :=
  (digits_local.map fun ds => e :: 0x2B :: ds).onByte <|
    (digits_local.map fun ds => e :: 0x2D :: ds).onByte (digits_local.map fun ds => e :: ds)

def unsigned (sign bs : List UInt8) : Option (List Char × List UInt8) :=
  (wholePart? bs).bind fun w => (fraction? w.2).bind fun f => (exponent? f.2).bind fun e =>
    some ((sign ++ w.1 ++ f.1 ++ e.1).map fun b => Char.ofNat b.toNat, e.2)

theorem unsigned_local (sign : List UInt8) : Local (unsigned sign) := by
  have hwhole : Local wholePart? := by
    rw [wholePart_eq]
    exact (loose_pure _).local.onByte digits_local
  have hfrac : Local fraction? := by
    rw [fraction_eq]
    exact (digits_local.map fun ds => 0x2E :: ds).onByte (loose_pure _).local
  have hexp : Local exponent? := by
    rw [exponent_eq]
    exact (exponentDigits_local _).onByte ((exponentDigits_local _).onByte (loose_pure _).local)
  exact hwhole.bind fun w => hfrac.bind fun f => hexp.bind fun e =>
    (loose_pure ((sign ++ w ++ f ++ e).map fun b => Char.ofNat b.toNat)).local

theorem number_eq : number? = onByte 0x2D (unsigned [0x2D]) (unsigned []) := by
  funext bs
  unfold number?
  split
  rename_i sign bs' he
  split at he
  · cases he
    rw [onByte_self]
    rfl
  · rename_i h
    cases he
    rw [onByte_other (head_ne h)]
    rfl

theorem number_local : Local number? := by
  rw [number_eq]
  exact (unsigned_local _).onByte (unsigned_local _)

/-! ## strings

A character is followed by the quote of its string, sooner or later.  The quote is no part of a longer
character and no digit of an escape, so what is behind it cannot matter. -/

theorem prefix_of_not_mem {α : Type} {l q r : List α} {m : α} (h : l <+: q ++ m :: r) (hm : m ∉ l) :
    l <+: q := by
  have hq : q ++ [m] <+: q ++ m :: r := ⟨r, by rw [List.append_assoc]; rfl⟩
  obtain h1 | h1 := List.prefix_or_prefix_of_prefix h hq
  · obtain rfl | h2 := List.prefix_concat_iff.mp h1
    · exact absurd (List.mem_append_right q List.mem_cons_self) hm
    · exact h2
  · exact absurd (h1.subset (List.mem_append_right q List.mem_cons_self)) hm

/-- a code point is settled by its bytes, which are a first one and tails -/
theorem codePoint_reads {l : List Nat} {n k : Nat} (h : codePoint? l = some (n, k)) :
    ∃ a ts x, l = a :: (ts ++ x) ∧ k = ts.length + 1 ∧ (∀ b ∈ ts, isTail b = true) ∧
      ∀ y, codePoint? (a :: (ts ++ y)) = some (n, k) := by
  unfold codePoint? at h
  split at h
  · cases h
  rename_i a r
  split at h
  · rename_i h1
    obtain ⟨rfl, rfl⟩ := Prod.mk.inj (Option.some.inj h)
    exact ⟨a, [], r, rfl, rfl, nofun, fun y => by simp [codePoint?, h1]⟩
  rename_i h1
  split at h
  · cases h
  rename_i b r
  split at h
  · rename_i h2
    cases h
    exact ⟨a, [b], r, rfl, rfl, by simp [h2.2.2], fun y => by simp [codePoint?, h1, h2]⟩
  rename_i h2
  split at h
  · cases h
  rename_i c r
  simp only at h
  split at h
  · rename_i h3
    cases h
    refine ⟨a, [b, c], r, rfl, rfl, by simp [h3.2.2.1, h3.2.2.2.1], fun y => ?_⟩
    simp only [List.cons_append, List.nil_append, codePoint?, h1, if_false, if_neg h2, if_pos h3]
  rename_i h3
  split at h
  · cases h
  rename_i d r
  split at h
  · rename_i h4
    cases h
    refine ⟨a, [b, c, d], r, rfl, rfl, by simp [h4.2.2.1, h4.2.2.2.1, h4.2.2.2.2.1], fun y => ?_⟩
    simp only [List.cons_append, List.nil_append, codePoint?, h1, if_false, if_neg h2, if_neg h3,
      if_pos h4]
  · cases h

/-- a character does not go across a quote -/
theorem utf8Next_behind {bs q r : List UInt8} {c : Char}
    (h : utf8Next bs = some (c, q ++ 0x22 :: r)) (hb : bs.head? ≠ some 0x22) :
    ∃ b p, bs = b :: p ++ (q ++ 0x22 :: r) ∧
      ∀ r', utf8Next (b :: p ++ (q ++ 0x22 :: r')) = some (c, q ++ 0x22 :: r') := by
  unfold utf8Next at h
  split at h
  · cases h
  rename_i b t
  split at h
  · -- the character is read whole
    rename_i n k hc
    obtain ⟨rfl, hdrop⟩ := Prod.mk.inj (Option.some.inj h)
    obtain ⟨a, ts, x, hl, rfl, -, hy⟩ := codePoint_reads hc
    have hlen := congrArg List.length hl
    simp only [List.length_map, List.length_take, List.length_cons, List.length_append] at hlen
    have htake : ((b :: t).take (ts.length + 1)).map UInt8.toNat = a :: ts := by
      have e := congrArg (List.take (ts.length + 1)) hl
      rw [← List.map_take, List.take_take, Nat.min_eq_left (by omega)] at e
      rw [e, List.take_succ_cons, List.take_left]
    have hp : ((b :: t).take (ts.length + 1)).length = ts.length + 1 := by
      rw [List.length_take, List.length_cons]
      omega
    refine ⟨b, t.take ts.length, ?_, fun r' => ?_⟩
    · rw [← hdrop, ← List.take_succ_cons, List.take_append_drop]
    · have hmap : ((b :: t.take ts.length ++ (q ++ 0x22 :: r')).take 4).map UInt8.toNat =
          a :: (ts ++ ((q ++ 0x22 :: r').take (4 - (ts.length + 1))).map UInt8.toNat) := by
        rw [← List.take_succ_cons, List.take_append, List.map_append, hp, List.take_of_length_le (by omega),
          htake]
        rfl
      unfold utf8Next
      simp only [List.cons_append]
      rw [← List.cons_append, hmap, hy]
      simp only
      rw [← List.take_succ_cons, List.drop_left' hp]
  · -- the byte stands alone, and does so before other bytes as well
    rename_i hc
    obtain ⟨rfl, rfl⟩ := Prod.mk.inj (Option.some.inj h)
    refine ⟨b, [], rfl, fun r' => ?_⟩
    have hnone : codePoint? (((b :: (q ++ 0x22 :: r')).take 4).map UInt8.toNat) = none := by
      cases hs : codePoint? (((b :: (q ++ 0x22 :: r')).take 4).map UInt8.toNat) with
      | none => rfl
      | some nk =>
        obtain ⟨a, ts, x, hl, -, htail, hy⟩ := codePoint_reads hs
        rw [List.take_succ_cons, List.map_cons] at hl
        obtain ⟨rfl, hts⟩ := List.cons.inj hl
        have hlen : ts.length ≤ 3 := by
          have e := congrArg List.length hts
          simp only [List.length_map, List.length_take, List.length_append] at e
          omega
        have hpre : ts <+: q.map UInt8.toNat := by
          refine prefix_of_not_mem (m := 0x22) (r := r'.map UInt8.toNat) ?_ fun hm => ?_
          · have h3 : (((q ++ 0x22 :: r').take 3).map UInt8.toNat) <+:
                (q ++ 0x22 :: r').map UInt8.toNat := (List.take_prefix ..).map _
            rw [hts, List.map_append] at h3
            exact (List.prefix_append ts x).trans h3
          · exact absurd (htail _ hm) (by decide)
        obtain ⟨z, hz⟩ := hpre
        rw [List.take_succ_cons, List.map_cons, List.map_take, List.map_append, ← hz,
          List.append_assoc, List.take_append, List.take_of_length_le hlen, hy] at hc
        cases hc
    unfold utf8Next
    simp only [List.cons_append, List.nil_append, hnone]

theorem value_of_number {cs : List Char} {acc n : Nat}
    (h : cs.foldlM (fun acc c => (Hex.value? c).map (16 * acc + ·)) acc = some n) :
    ∀ c ∈ cs, Hex.value? c ≠ none := by
  induction cs generalizing acc with
  | nil => exact nofun
  | cons c cs ih =>
    obtain ⟨acc', h1, h2⟩ := Option.bind_eq_some_iff.mp (List.foldlM_cons.symm.trans h)
    intro d hd
    rcases List.mem_cons.mp hd with rfl | hd
    · intro hn
      rw [hn] at h1
      cases h1
    · exact ih h2 d hd

/-- four digits are settled by themselves, and none is a quote -/
theorem hex4_reads {bs r : List UInt8} {n : Nat} (h : hex4? bs = some (n, r)) :
    ∃ ds, bs = ds ++ r ∧ 0x22 ∉ ds ∧ ∀ r', hex4? (ds ++ r') = some (n, r') := by
  simp only [hex4?] at h
  split at h
  · rename_i hlen
    obtain ⟨m, hm, e⟩ := Option.map_eq_some_iff.mp h
    cases e
    have h4 : (bs.take 4).length = 4 := by rwa [List.length_map] at hlen
    refine ⟨bs.take 4, (List.take_append_drop 4 bs).symm, fun hq => ?_, fun r' => ?_⟩
    · unfold Hex.number? at hm
      rw [String.toList_ofList] at hm
      exact value_of_number hm _ (List.mem_map_of_mem hq) (by decide)
    · simp only [hex4?, List.take_left' h4, List.drop_left' h4, if_pos hlen, hm, Option.map_some]
  · cases h

theorem lowHalf_reads {bs r : List UInt8} {n : Nat} (h : lowHalf? bs = some (n, r)) :
    ∃ ds, bs = ds ++ r ∧ 0x22 ∉ ds ∧ ∀ r', lowHalf? (ds ++ r') = some (n, r') := by
  unfold lowHalf? at h
  split at h
  · obtain ⟨h1, h2⟩ := Option.filter_eq_some_iff.mp h
    obtain ⟨ds, rfl, hq, hr⟩ := hex4_reads h1
    refine ⟨0x5C :: 0x75 :: ds, rfl, by simp [hq], fun r' => ?_⟩
    exact Option.filter_eq_some_iff.mpr ⟨hr r', h2⟩
  · cases h

theorem escaped_behind {n : Nat} {bs q r : List UInt8} {c : Char}
    (h : escaped n bs = (c, q ++ 0x22 :: r)) : ∃ p, bs = p ++ (q ++ 0x22 :: r) ∧
      ∀ r', escaped n (p ++ (q ++ 0x22 :: r')) = (c, q ++ 0x22 :: r') := by
  by_cases hhigh : 0xD800 ≤ n ∧ n < 0xDC00
  · cases hl : lowHalf? bs with
    | some x =>
      obtain ⟨l, r1⟩ := x
      simp only [escaped, if_pos hhigh, hl] at h
      obtain ⟨rfl, rfl⟩ := Prod.mk.inj h
      obtain ⟨ds, rfl, -, hr⟩ := lowHalf_reads hl
      exact ⟨ds, rfl, fun r' => by simp only [escaped, if_pos hhigh, hr]⟩
    | none =>
      simp only [escaped, if_pos hhigh, hl] at h
      obtain ⟨rfl, rfl⟩ := Prod.mk.inj h
      refine ⟨[], rfl, fun r' => ?_⟩
      -- a second half would have to end before the quote, and would have been there before
      have hnone : lowHalf? (q ++ 0x22 :: r') = none := by
        cases hs : lowHalf? (q ++ 0x22 :: r') with
        | none => rfl
        | some x =>
          obtain ⟨ds, e, hq, hr⟩ := lowHalf_reads (n := x.1) (r := x.2) hs
          obtain ⟨z, rfl⟩ := prefix_of_not_mem (l := ds) ⟨x.2, e.symm⟩ hq
          rw [List.append_assoc, hr] at hl
          cases hl
      simp only [escaped, if_pos hhigh, List.nil_append, hnone]
  · refine ⟨[], ?_, fun r' => ?_⟩
    · simp only [escaped, if_neg hhigh] at h
      split at h <;> exact (Prod.mk.inj h).2
    · simp only [escaped, if_neg hhigh] at h ⊢
      split at h
      · rename_i hlow
        rw [if_pos hlow, (Prod.mk.inj h).1]
        rfl
      · rename_i hlow
        rw [if_neg hlow, (Prod.mk.inj h).1]
        rfl

theorem stringChar_behind {bs q r : List UInt8} {c : Char}
    (h : stringChar? bs = some (c, q ++ 0x22 :: r)) (hb : bs.head? ≠ some 0x22) :
    ∃ b p, b ≠ 0x22 ∧ bs = b :: p ++ (q ++ 0x22 :: r) ∧
      ∀ r', stringChar? (b :: p ++ (q ++ 0x22 :: r')) = some (c, q ++ 0x22 :: r') := by
  unfold stringChar? at h
  split at h
  · obtain ⟨⟨n, r1⟩, h1, h2⟩ := Option.map_eq_some_iff.mp h
    obtain ⟨ds, rfl, -, hds⟩ := hex4_reads h1
    obtain ⟨p, rfl, hp⟩ := escaped_behind h2
    refine ⟨0x5C, 0x75 :: ds ++ p, by decide, by simp, fun r' => ?_⟩
    simp only [List.cons_append, List.append_assoc, stringChar_hex, hds, Option.map_some, hp]
  · rename_i e t hne
    obtain ⟨c', h1, h2⟩ := Option.map_eq_some_iff.mp h
    obtain ⟨rfl, rfl⟩ := Prod.mk.inj h2
    have he : e ≠ 0x75 := fun h => hne h
    exact ⟨0x5C, [e], by decide, rfl, fun r' => shortEscape_bytes h1 he _⟩
  · rename_i b t h1 h2
    split at h
    · cases h
    · rename_i hplain
      obtain ⟨hlt, hne⟩ := not_or.mp hplain
      obtain ⟨b', p, e, hp⟩ := utf8Next_behind h hb
      obtain ⟨rfl, rfl⟩ := List.cons.inj e
      refine ⟨b, p, fun h => hb (congrArg some h), rfl, fun r' => ?_⟩
      rw [List.cons_append, stringChar_plain (UInt8.not_lt.mp hlt) hne]
      exact hp r'
  · cases h

/-- **A string ends with its quote.** -/
theorem stringBody_settled {fuel : Nat} {bs r : List UInt8} {cs : List Char}
    (h : stringBody? fuel bs = some (cs, r)) :
    ∃ p, bs = p ++ 0x22 :: r ∧ ∀ r', stringBody? fuel (p ++ 0x22 :: r') = some (cs, r') := by
  induction fuel generalizing bs cs with
  | zero => cases h
  | succ fuel ih =>
    unfold stringBody? at h
    split at h
    · cases h
      exact ⟨[], rfl, fun _ => rfl⟩
    · rename_i hq
      obtain ⟨⟨c, r1⟩, h1, h⟩ := Option.bind_eq_some_iff.mp h
      obtain ⟨⟨cs', r2⟩, h2, h⟩ := Option.bind_eq_some_iff.mp h
      cases h
      obtain ⟨p, rfl, hp⟩ := ih h2
      obtain ⟨b, p0, hb, rfl, hp0⟩ := stringChar_behind h1 (head_ne hq)
      refine ⟨b :: p0 ++ p, (List.append_assoc ..).symm, fun r' => ?_⟩
      rw [List.append_assoc]
      refine (stringBody_cons hb (hp0 r')).trans ?_
      rw [hp]
      rfl

theorem string_settled : Settled string? := by
  intro bs cs r h
  unfold string? at h
  split at h
  · rename_i t
    obtain ⟨p, rfl, hp⟩ := stringBody_settled h
    refine ⟨0x22 :: (p ++ [0x22]), List.cons_ne_nil _ _, by simp, fun r' hr => ?_⟩
    have e : 0x22 :: (p ++ [0x22]) ++ r' = 0x22 :: (p ++ 0x22 :: r') := by simp
    have hlen : (0x22 :: (p ++ 0x22 :: r')).length = (0x22 :: (p ++ 0x22 :: r)).length := by
      simp [hr]
    rw [e]
    unfold string?
    simp only
    rw [hlen, hp]
  · cases h

/-! ## values -/

/-- a value is settled up to the byte behind it, and for itself if it is no number -/
def Extends (parse : List UInt8 → Option (JsonValue × List UInt8)) : Prop :=
  ∀ ⦃bs v r⦄, parse bs = some (v, r) → ∃ p, bs = p ++ r ∧
    (∀ r', Alike r r' → parse (p ++ r') = some (v, r')) ∧
    ((∀ t, v ≠ .number t) → p ≠ [] ∧ ∀ r', r'.length = r.length → parse (p ++ r') = some (v, r'))

def atByte {α : Type} (b : UInt8) (f k : List UInt8 → Option α) (bs : List UInt8) : Option α :=
  if bs.head? = some b then f bs else k bs

section
variable {f k : List UInt8 → Option (JsonValue × List UInt8)}

theorem Extends.local (h : Extends f) : Local f := by
  intro bs v r e
  obtain ⟨p, rfl, hp, -⟩ := h e
  exact ⟨p, rfl, hp⟩

theorem Extends.onByte {b : UInt8} (hf : Settled f) (hk : Extends k) :
    Extends (JsonValue.onByte b f k) := by
  intro bs v r e
  obtain ⟨t, rfl, ht⟩ | ⟨hne, ht⟩ := onByte_cases (b := b) (f := f) (k := k) bs
  · obtain ⟨p, hp, rfl, hr⟩ := hf (ht.symm.trans e)
    have hall : ∀ r', r'.length = r.length → JsonValue.onByte b f k (b :: p ++ r') = some (v, r') :=
      fun r' hl => (onByte_self _).trans (hr r' hl)
    exact ⟨b :: p, rfl, fun r' hl => hall r' hl.length, fun _ => ⟨List.cons_ne_nil b p, hall⟩⟩
  · obtain ⟨p, rfl, hp, hq⟩ := hk (ht.symm.trans e)
    refine ⟨p, rfl, fun r' hr => (onByte_other (by rwa [(hr.append p).head])).trans (hp r' hr),
      fun hv => ⟨(hq hv).1, fun r' hl => ?_⟩⟩
    exact (onByte_other (by rwa [(alike_append (hq hv).1 hl).head])).trans ((hq hv).2 r' hl)

theorem Extends.atByte {b : UInt8} (hf : Settled f) (hk : Extends k) :
    Extends (JsonValue.atByte b f k) := by
  intro bs v r e
  by_cases hb : bs.head? = some b
  · obtain ⟨p, hp, rfl, hr⟩ := hf ((if_pos hb).symm.trans e)
    have hall : ∀ r', r'.length = r.length → JsonValue.atByte b f k (p ++ r') = some (v, r') :=
      fun r' hl => (if_pos ((alike_append hp hl).head.trans hb)).trans (hr r' hl)
    exact ⟨p, rfl, fun r' hl => hall r' hl.length, fun _ => ⟨hp, hall⟩⟩
  · obtain ⟨p, rfl, hp, hq⟩ := hk ((if_neg hb).symm.trans e)
    refine ⟨p, rfl, fun r' hr => (if_neg (by rwa [(hr.append p).head])).trans (hp r' hr),
      fun hv => ⟨(hq hv).1, fun r' hl => ?_⟩⟩
    exact (if_neg (by rwa [(alike_append (hq hv).1 hl).head])).trans ((hq hv).2 r' hl)

theorem Extends.skip (hf : Extends f) : Extends fun bs => f (skipSpaces bs) := by
  intro bs v r e
  obtain ⟨p, hpr, hp, hq⟩ := hf e
  obtain ⟨sp, hsp, hs⟩ := skipSpaces_local (rfl : _ = some ((), skipSpaces bs))
  rw [hpr] at hs hsp
  have hskip : ∀ r', Alike (p ++ r) (p ++ r') → skipSpaces (sp ++ p ++ r') = p ++ r' := by
    intro r' hr
    have h := hs _ hr
    rw [List.append_assoc]
    exact congrArg Prod.snd (Option.some.inj h)
  refine ⟨sp ++ p, by rw [hsp, List.append_assoc], fun r' hr => ?_, fun hv => ⟨?_, fun r' hl => ?_⟩⟩
  · simp only [hskip r' (hr.append p), hp r' hr]
  · simp [(hq hv).1]
  · simp only [hskip r' (alike_append (hq hv).1 hl), (hq hv).2 r' hl]

end

def itemsEnd (fuel depth : Nat) (v : JsonValue) : List UInt8 → Option (List JsonValue × List UInt8) :=
  onByte 0x5D (fun r => some ([v], r)) <|
    onByte 0x2C (fun r => (items? fuel depth r).map fun x => (v :: x.1, x.2)) fun _ => none

def membersEnd (fuel depth : Nat) (k : List Char) (v : JsonValue) :
    List UInt8 → Option (List (List Char × JsonValue) × List UInt8) :=
  onByte 0x7D (fun r => some ([(k, v)], r)) <|
    onByte 0x2C (fun r => (members? fuel depth r).map fun x => ((k, v) :: x.1, x.2)) fun _ => none

/-- an object behind its first brace -/
def objectRest (fuel depth : Nat) (bs : List UInt8) : Option (JsonValue × List UInt8) :=
  onByte 0x7D (fun r => some (.object [], r))
    (fun r => (members? fuel (depth + 1) r).map fun x => (.object x.1, x.2)) (skipSpaces bs)

def arrayRest (fuel depth : Nat) (bs : List UInt8) : Option (JsonValue × List UInt8) :=
  onByte 0x5D (fun r => some (.array [], r))
    (fun r => (items? fuel (depth + 1) r).map fun x => (.array x.1, x.2)) (skipSpaces bs)

def plain? : List UInt8 → Option (JsonValue × List UInt8) :=
  atByte 0x22 (fun bs => (string? bs).map fun x => (.string x.1, x.2)) <|
    atByte 0x6E (fun bs => (afterWord? "null" bs).map fun r => (.null, r)) <|
      atByte 0x74 (fun bs => (afterWord? "true" bs).map fun r => (.bool true, r)) <|
        atByte 0x66 (fun bs => (afterWord? "false" bs).map fun r => (.bool false, r)) fun bs =>
          (number? bs).map fun x => (.number x.1, x.2)

section
variable (fuel depth : Nat)

theorem items_eq : items? (fuel + 1) depth = fun bs =>
    (value? fuel depth bs).bind fun x => itemsEnd fuel depth x.1 (skipSpaces x.2) := by
  funext bs
  unfold items?
  cases value? fuel depth bs with
  | none => rfl
  | some x =>
    obtain ⟨v, r⟩ := x
    simp only [Option.bind_some, itemsEnd]
    split
    · rename_i h
      rw [h, onByte_self]
    · rename_i h
      rw [h]
      rfl
    · rename_i h1 h2
      rw [onByte_other (head_ne h1), onByte_other (head_ne h2)]

theorem members_eq : members? (fuel + 1) depth = fun bs =>
    (string? (skipSpaces bs)).bind fun x => onByte 0x3A (fun r =>
      (value? fuel depth r).bind fun y => membersEnd fuel depth x.1 y.1 (skipSpaces y.2))
      (fun _ => none) (skipSpaces x.2) := by
  funext bs
  unfold members?
  cases string? (skipSpaces bs) with
  | none => rfl
  | some x =>
    obtain ⟨k, r⟩ := x
    simp only [Option.bind_some]
    split
    · rename_i r1 h
      rw [h, onByte_self]
      cases value? fuel depth r1 with
      | none => rfl
      | some y =>
        obtain ⟨v, r2⟩ := y
        simp only [Option.bind_some, membersEnd]
        split
        · rename_i h
          rw [h, onByte_self]
        · rename_i h
          rw [h]
          rfl
        · rename_i h1 h2
          rw [onByte_other (head_ne h1), onByte_other (head_ne h2)]
    · rename_i h
      rw [onByte_other (head_ne h)]

theorem value_eq : value? (fuel + 1) depth = fun bs =>
    onByte 0x7B (fun r => if maxDepth ≤ depth then none else objectRest fuel depth r)
      (onByte 0x5B (fun r => if maxDepth ≤ depth then none else arrayRest fuel depth r) plain?)
      (skipSpaces bs) := by
  funext bs
  unfold value?
  cases skipSpaces bs with
  | nil => rfl
  | cons b r =>
    have hhead : ∀ c, b ≠ c → (b :: r).head? ≠ some c := fun c hc e => hc (Option.some.inj e)
    by_cases hobject : b = 0x7B
    · subst hobject
      rw [onByte_self]
      show (if maxDepth ≤ depth then none else _) = _
      refine ite_congr rfl (fun _ => rfl) fun _ => ?_
      unfold objectRest
      split
      · rename_i h
        rw [h, onByte_self]
      · rename_i h
        rw [onByte_other (head_ne h)]
    by_cases harray : b = 0x5B
    · subst harray
      rw [onByte_other (hhead _ hobject), onByte_self]
      show (if maxDepth ≤ depth then none else _) = _
      refine ite_congr rfl (fun _ => rfl) fun _ => ?_
      unfold arrayRest
      split
      · rename_i h
        rw [h, onByte_self]
      · rename_i h
        rw [onByte_other (head_ne h)]
    rw [onByte_other (hhead _ hobject), onByte_other (hhead _ harray)]
    simp only [if_neg hobject, if_neg harray, plain?, atByte, List.head?_cons, Option.some.injEq]

theorem plain_extends : Extends plain? := by
  have hword : ∀ {w : String} (v : JsonValue), w ≠ "" →
      Settled fun bs => (afterWord? w bs).map fun r => (v, r) := by
    intro w v hw bs v' r e
    obtain ⟨r1, h1, h2⟩ := Option.map_eq_some_iff.mp e
    cases h2
    obtain ⟨p, hne, rfl, hp⟩ := afterWord_settled hw
      (show (afterWord? w bs).map (fun r => ((), r)) = some ((), r) by rw [h1]; rfl)
    refine ⟨p, hne, rfl, fun r' hr => ?_⟩
    obtain ⟨r2, h2, h3⟩ := Option.map_eq_some_iff.mp (hp r' hr)
    cases h3
    simp only [h2, Option.map_some]
  have hnumber : Extends fun bs => (number? bs).map fun x => (.number x.1, x.2) := by
    intro bs v r e
    obtain ⟨p, rfl, hp⟩ := number_local.map JsonValue.number e
    refine ⟨p, rfl, hp, fun hv => ?_⟩
    obtain ⟨x, -, hx⟩ := Option.map_eq_some_iff.mp e
    exact absurd (Prod.mk.inj hx).1.symm (hv x.1)
  exact .atByte (string_settled.map JsonValue.string) <| .atByte (hword _ (by decide)) <|
    .atByte (hword _ (by decide)) <| .atByte (hword _ (by decide)) hnumber

end

theorem Settled.unless {α : Type} {f : List UInt8 → Option (α × List UInt8)} (c : Prop) [Decidable c]
    (hf : Settled f) : Settled fun bs => if c then none else f bs := by
  by_cases h : c
  · simpa only [if_pos h] using settled_none
  · simpa only [if_neg h] using hf

theorem itemsEnd_settled {fuel depth : Nat} (h : Settled (items? fuel depth)) (v : JsonValue) :
    Settled (itemsEnd fuel depth v) :=
  (loose_pure [v]).onByte_settled <| (h.map fun vs => v :: vs).loose.onByte_settled settled_none

theorem membersEnd_settled {fuel depth : Nat} (h : Settled (members? fuel depth)) (k : List Char)
    (v : JsonValue) : Settled (membersEnd fuel depth k v) :=
  (loose_pure [(k, v)]).onByte_settled <|
    (h.map fun ms => (k, v) :: ms).loose.onByte_settled settled_none

theorem objectRest_settled {fuel depth : Nat} (h : Settled (members? fuel (depth + 1))) :
    Settled (objectRest fuel depth) :=
  ((loose_pure (object [])).onByte_settled (h.map object)).skip

theorem arrayRest_settled {fuel depth : Nat} (h : Settled (items? fuel (depth + 1))) :
    Settled (arrayRest fuel depth) :=
  ((loose_pure (array [])).onByte_settled (h.map array)).skip

/-- **Values are settled**, by induction on the fuel: the lists of an array and an object by the byte
that ends them. -/
theorem value_extent (fuel : Nat) : (∀ depth, Extends (value? fuel depth)) ∧
    (∀ depth, Settled (items? fuel depth)) ∧ ∀ depth, Settled (members? fuel depth) := by
  induction fuel with
  | zero =>
    refine ⟨fun depth bs v r e => ?_, fun depth => ?_, fun depth => ?_⟩
    · unfold value? at e
      cases e
    · have e : items? 0 depth = fun _ => none := by funext bs; unfold items?; rfl
      rw [e]
      exact settled_none
    · have e : members? 0 depth = fun _ => none := by funext bs; unfold members?; rfl
      rw [e]
      exact settled_none
  | succ fuel ih =>
    obtain ⟨hvalue, hitems, hmembers⟩ := ih
    refine ⟨fun depth => ?_, fun depth => ?_, fun depth => ?_⟩
    · rw [value_eq]
      exact (Extends.onByte ((objectRest_settled (hmembers _)).unless _)
        (.onByte ((arrayRest_settled (hitems _)).unless _) plain_extends)).skip
    · rw [items_eq]
      exact (hvalue depth).local.bind_settled fun v => (itemsEnd_settled (hitems depth) v).skip
    · rw [members_eq]
      have hmember : ∀ k, Settled fun r => (value? fuel depth r).bind fun y =>
          membersEnd fuel depth k y.1 (skipSpaces y.2) := fun k =>
        (hvalue depth).local.bind_settled fun v => (membersEnd_settled (hmembers depth) k v).skip
      have hcolon : ∀ k, Settled fun bs => onByte 0x3A (fun r => (value? fuel depth r).bind fun y =>
          membersEnd fuel depth k y.1 (skipSpaces y.2)) (fun _ => none) (skipSpaces bs) := fun k =>
        ((hmember k).loose.onByte_settled settled_none).skip
      exact string_settled.loose.local.skip.bind_settled hcolon

/-- **A value that is no number does not depend on what is behind it.** -/
theorem read_extent {bs r : List UInt8} {v : JsonValue} (h : read bs = some (v, r))
    (hv : ∀ t, v ≠ .number t) :
    ∃ p, bs = p ++ r ∧ ∀ r', r'.length = r.length → read (p ++ r') = some (v, r') := by
  obtain ⟨p, rfl, -, hp⟩ := (value_extent _).1 0 h
  refine ⟨p, rfl, fun r' hr => ?_⟩
  have hlen : (p ++ r').length = (p ++ r).length := by simp [hr]
  unfold read
  rw [hlen]
  exact (hp hv).2 r' hr

end TreeJit.JsonValue
