import Mathlib.Data.List.DropRight
import Mathlib.Data.List.Forall2
import Significance.Json.Source

/-! # Arrays of documents

A document is read in the same way where a comma or a bracket follows it. So texts that each hold a
document, between brackets and with commas between them, hold the array of these documents. -/

namespace Significance.Json.Source

variable {c : Char} {more text rest : List Char}

/-- A character that ends an item of an array. -/
def EndsItem (c : Char) : Prop :=
  c = ',' ∨ c = ']'

/-- A result of reading with more text behind what is left. -/
def followedBy {α : Type} (more : List Char) (result : α × List Char) : α × List Char :=
  (result.1, result.2 ++ more)

/-! ## White space -/

theorem skip_append (h : skip text ≠ []) (more : List Char) :
    skip (text ++ more) = skip text ++ more := by
  unfold skip at h ⊢
  rw [List.dropWhile_append, if_neg (by simpa using h)]

theorem skip_append_of_eq {d : Char} (h : skip text = d :: rest) :
    skip (text ++ more) = d :: (rest ++ more) := by
  rw [skip_append (by simp [h]), h, List.cons_append]

theorem EndsItem.skip_eq (hc : EndsItem c) (h : skip text = []) (more : List Char) :
    skip (text ++ c :: more) = c :: more := by
  have hspace : isSpace c = false := by
    rcases hc with rfl | rfl
    · rfl
    · rfl
  unfold skip at h ⊢
  rw [List.dropWhile_append, h, List.isEmpty_nil, if_pos rfl, List.dropWhile_cons, hspace]
  rfl

theorem skip_skip (text : List Char) : skip (skip text) = skip text :=
  List.dropWhile_idempotent isSpace text

/-! ## The first character -/

/-- What a value is read from starts with something. -/
theorem skip_ne_nil {fuel : ℕ} {result : Source × List Char} (h : value? fuel text = some result) :
    skip text ≠ [] := by
  intro hnil
  cases fuel with
  | zero => cases h
  | succ fuel =>
      rw [value?, hnil] at h
      cases h

theorem items?_skip_ne_nil {fuel : ℕ} {result : List Source × List Char}
    (h : items? fuel text = some result) : skip text ≠ [] := by
  cases fuel with
  | zero => cases h
  | succ fuel =>
      rw [items?, Option.bind_eq_bind, Option.bind_eq_some_iff] at h
      obtain ⟨_, hvalue, -⟩ := h
      exact skip_ne_nil hvalue

theorem fields?_skip_ne_nil {fuel : ℕ} {result : List (Option String × Source) × List Char}
    (h : fields? fuel text = some result) : skip text ≠ [] := by
  intro hnil
  cases fuel with
  | zero => cases h
  | succ fuel =>
      rw [fields?, hnil] at h
      cases h

/-! ## Numbers -/

namespace EndsItem

theorem digit?_eq_none (hc : EndsItem c) : Decimal.digit? c = none := by
  rcases hc with rfl | rfl
  · decide
  · decide

theorem spanDigits_append (hc : EndsItem c) (text more : List Char) :
    Decimal.spanDigits (text ++ c :: more) =
      followedBy (c :: more) (Decimal.spanDigits text) := by
  induction text with
  | nil =>
      rw [List.nil_append, Decimal.spanDigits.eq_def]
      simp [hc.digit?_eq_none, Decimal.spanDigits, followedBy]
  | cons d text ih =>
      rw [List.cons_append, Decimal.spanDigits, Decimal.spanDigits, ih]
      cases Decimal.digit? d with
      | none => rfl
      | some digit => rfl

theorem whole?_append (hc : EndsItem c) (text more : List Char) :
    whole? (text ++ c :: more) = (whole? text).map (followedBy (c :: more)) := by
  unfold whole?
  rw [hc.spanDigits_append]
  obtain ⟨_ | ⟨_ | _, _ | _⟩, rest⟩ := Decimal.spanDigits text
  all_goals rfl

theorem fraction?_append (hc : EndsItem c) (text more : List Char) :
    fraction? (text ++ c :: more) = (fraction? text).map (followedBy (c :: more)) := by
  cases text with
  | nil =>
      rcases hc with rfl | rfl
      · rfl
      · rfl
  | cons d text =>
      by_cases hd : d = '.'
      · subst hd
        rw [List.cons_append, fraction?, fraction?, hc.spanDigits_append]
        obtain ⟨_ | ⟨_, _⟩, rest⟩ := Decimal.spanDigits text
        · rfl
        · rfl
      · have hplain : ∀ rest, fraction? (d :: rest) = some ([], d :: rest) := by
          intro rest
          unfold fraction?
          split
          · next heq => exact absurd (List.cons.inj heq).1 hd
          · rfl
        rw [List.cons_append, hplain, hplain]
        rfl

theorem spanSign_append (hc : EndsItem c) (text more : List Char) :
    Decimal.spanSign (text ++ c :: more) =
      followedBy (c :: more) (Decimal.spanSign text) := by
  cases text with
  | nil =>
      rcases hc with rfl | rfl
      · rfl
      · rfl
  | cons d text =>
      by_cases hminus : d = '-'
      · subst hminus
        rfl
      · by_cases hplus : d = '+'
        · subst hplus
          rfl
        · have hplain : ∀ rest, Decimal.spanSign (d :: rest) = (false, d :: rest) := by
            intro rest
            unfold Decimal.spanSign
            split
            · next heq => exact absurd (List.cons.inj heq).1 hminus
            · next heq => exact absurd (List.cons.inj heq).1 hplus
            · rfl
          rw [List.cons_append, hplain, hplain]
          rfl

theorem power?_append (hc : EndsItem c) (text more : List Char) :
    power? (text ++ c :: more) = (power? text).map (followedBy (c :: more)) := by
  cases text with
  | nil =>
      rcases hc with rfl | rfl
      · rfl
      · rfl
  | cons d text =>
      rw [List.cons_append, power?, power?]
      split
      · rw [hc.spanSign_append]
        dsimp only [followedBy]
        rw [hc.spanDigits_append]
        obtain ⟨_ | ⟨_, _⟩, rest⟩ := Decimal.spanDigits (Decimal.spanSign text).2
        · rfl
        · rfl
      · rfl

end EndsItem

/-- A number after its sign, and what follows. -/
def magnitude? (negative : Bool) (text : List Char) : Option (Literal × List Char) := do
  let (whole, text) ← whole? text
  let (fraction, text) ← fraction? text
  let (power, text) ← power? text
  return ({ negative, whole, fraction, power }, text)

theorem literal?_of_ne (h : c ≠ '-') (text : List Char) :
    literal? (c :: text) = magnitude? false (c :: text) := by
  unfold literal?
  split
  next negative unsigned hsign =>
    split at hsign
    · next heq => exact absurd (List.cons.inj heq).1 h
    · cases hsign
      rfl

namespace EndsItem

theorem magnitude?_append (hc : EndsItem c) (negative : Bool) (text more : List Char) :
    magnitude? negative (text ++ c :: more) =
      (magnitude? negative text).map (followedBy (c :: more)) := by
  unfold magnitude?
  rw [hc.whole?_append]
  cases whole? text with
  | none => rfl
  | some whole =>
      obtain ⟨whole, text⟩ := whole
      simp only [Option.map_some, followedBy, Option.bind_eq_bind, Option.bind_some]
      rw [hc.fraction?_append]
      cases fraction? text with
      | none => rfl
      | some fraction =>
          obtain ⟨fraction, text⟩ := fraction
          simp only [Option.map_some, followedBy, Option.bind_some]
          rw [hc.power?_append]
          cases power? text with
          | none => rfl
          | some power => rfl

theorem ne_minus (hc : EndsItem c) : c ≠ '-' := by
  rcases hc with rfl | rfl
  · decide
  · decide

theorem literal?_append (hc : EndsItem c) (text more : List Char) :
    literal? (text ++ c :: more) = (literal? text).map (followedBy (c :: more)) := by
  cases text with
  | nil =>
      rw [List.nil_append, literal?_of_ne hc.ne_minus, ← List.nil_append (c :: more),
        hc.magnitude?_append]
      rfl
  | cons d text =>
      by_cases hd : d = '-'
      · subst hd
        exact hc.magnitude?_append true text more
      · rw [List.cons_append, literal?_of_ne hd, literal?_of_ne hd, ← List.cons_append,
          hc.magnitude?_append]

end EndsItem

/-- A number starts with a sign or a digit. -/
theorem exists_of_literal? {result : Literal × List Char} (h : literal? text = some result) :
    ∃ d rest, text = d :: rest ∧ (d = '-' ∨ (Decimal.digit? d).isSome) := by
  cases text with
  | nil => cases h
  | cons d text =>
      refine ⟨d, text, rfl, ?_⟩
      by_cases hd : d = '-'
      · exact Or.inl hd
      · right
        rw [literal?_of_ne hd, magnitude?, whole?, Decimal.spanDigits.eq_def] at h
        cases hdigit : Decimal.digit? d with
        | none => simp [hdigit] at h
        | some digit => rfl

/-! ## Texts -/

theorem units?_hex (a b c d : Char) (rest : List Char) :
    units? ('\\' :: 'u' :: a :: b :: c :: d :: rest) = (hexUnit? a b c d).bind fun unit =>
      (units? rest).map fun (units, rest) => (unit :: units, rest) := by
  rw [units?]
  cases hexUnit? a b c d with
  | none => rfl
  | some unit =>
      cases units? rest with
      | none => rfl
      | some result => rfl

theorem units?_escape {c : Char} (hc : c ≠ 'u') (rest : List Char) :
    units? ('\\' :: c :: rest) = (escape? c).bind fun unit =>
      (units? rest).map fun (units, rest) => (unit :: units, rest) := by
  rw [units?]
  · cases escape? c with
    | none => rfl
    | some unit =>
        cases units? rest with
        | none => rfl
        | some result => rfl
  · exact fun _ _ _ _ _ heq _ => hc heq

theorem units?_plain {c : Char} (hquote : c ≠ '"') (hplain : ¬(c.toNat < 0x20 ∨ c = '\\'))
    (rest : List Char) :
    units? (c :: rest) = (units? rest).map fun (units, rest) => (c.toNat :: units, rest) := by
  have hescape : c ≠ '\\' := fun heq => hplain (Or.inr heq)
  rw [units?]
  · rw [if_neg hplain]
    cases units? rest with
    | none => rfl
    | some result => rfl
  · exact hquote
  · exact fun _ _ _ _ _ heq _ => hescape heq
  · exact fun _ _ heq _ => hescape heq

/-- A text that is closed does not depend on what follows. -/
theorem units?_append {units : Units} (h : units? text = some (units, rest)) (more : List Char) :
    units? (text ++ more) = some (units, rest ++ more) := by
  fun_induction units? text generalizing units rest with
  | case1 => cases h
  | case2 =>
      cases h
      rfl
  | case3 a b c d text ih =>
      simp only [Option.bind_eq_bind, Option.bind_eq_some_iff] at h
      obtain ⟨unit, hunit, ⟨units', rest'⟩, hunits, heq⟩ := h
      cases heq
      change units? ('\\' :: 'u' :: a :: b :: c :: d :: (text ++ more)) = _
      rw [units?_hex, hunit, ih hunits]
      rfl
  | case4 c text hhex ih =>
      simp only [Option.bind_eq_bind, Option.bind_eq_some_iff] at h
      obtain ⟨unit, hunit, ⟨units', rest'⟩, hunits, heq⟩ := h
      cases heq
      -- A letter u that is not followed by four digits is no escape.
      have hc : c ≠ 'u' := by
        rintro rfl
        cases hunit
      rw [List.cons_append, List.cons_append, units?_escape hc, hunit, ih hunits]
      rfl
  | case5 => cases h
  | case6 c text hquote hhex hescape hplain ih =>
      simp only [Option.bind_eq_bind, Option.bind_eq_some_iff] at h
      obtain ⟨⟨units', rest'⟩, hunits, heq⟩ := h
      cases heq
      rw [List.cons_append, units?_plain hquote hplain, ih hunits]
      rfl

theorem string?_append {result : Option String × List Char} (h : string? text = some result)
    (more : List Char) : string? (text ++ more) = some (followedBy more result) := by
  obtain ⟨⟨units, rest⟩, hunits, rfl⟩ := Option.map_eq_some_iff.mp h
  rw [string?, units?_append hunits]
  rfl

/-! ## Documents -/

/-- Reading with some fuel goes on behind a document: with as much fuel or more it gives the same,
and leaves what follows. -/
structure GoesOn (fuel : ℕ) : Prop where
  value : ∀ {fuel' : ℕ} {text : List Char} {result : Source × List Char} {c : Char},
    fuel ≤ fuel' → EndsItem c → value? fuel text = some result →
      ∀ more, value? fuel' (text ++ c :: more) = some (followedBy (c :: more) result)
  items : ∀ {fuel' : ℕ} {text : List Char} {result : List Source × List Char} {c : Char},
    fuel ≤ fuel' → EndsItem c → items? fuel text = some result →
      ∀ more, items? fuel' (text ++ c :: more) = some (followedBy (c :: more) result)
  fields : ∀ {fuel' : ℕ} {text : List Char} {result : List (Option String × Source) × List Char}
    {c : Char}, fuel ≤ fuel' → EndsItem c → fields? fuel text = some result →
      ∀ more, fields? fuel' (text ++ c :: more) = some (followedBy (c :: more) result)

theorem goesOn_zero : GoesOn 0 where
  value := fun _ _ h => nomatch h
  items := fun _ _ h => nomatch h
  fields := fun _ _ h => nomatch h

/-! What is read at the start of a document, by its first character. -/

section Start

variable {fuel : ℕ} {behind : List Char}

theorem value?_string (h : skip text = '"' :: rest) : value? (fuel + 1) text =
    (string? rest).map fun (text, rest) => (.string text, rest) := by
  rw [value?, h]
  rfl

theorem value?_bracket (h : skip text = '[' :: rest) : value? (fuel + 1) text =
    match skip rest with
    | ']' :: rest => some (.array [], rest)
    | rest => (items? fuel rest).map fun (items, rest) => (.array items, rest) := by
  rw [value?, h]
  rfl

theorem value?_brace (h : skip text = '{' :: rest) : value? (fuel + 1) text =
    match skip rest with
    | '}' :: rest => some (.object [], rest)
    | rest => (fields? fuel rest).map fun (fields, rest) => (.object fields, rest) := by
  rw [value?, h]
  rfl

theorem value?_emptyArray (h : skip text = '[' :: rest) (hbehind : skip rest = ']' :: behind) :
    value? (fuel + 1) text = some (.array [], behind) := by
  rw [value?_bracket h, hbehind]
  rfl

theorem value?_array (h : skip text = '[' :: rest) (hne : ∀ behind, skip rest ≠ ']' :: behind) :
    value? (fuel + 1) text =
      (items? fuel (skip rest)).map fun (items, rest) => (.array items, rest) := by
  rw [value?_bracket h]
  split
  · next heq => exact absurd heq (hne _)
  · rfl

theorem value?_emptyObject (h : skip text = '{' :: rest) (hbehind : skip rest = '}' :: behind) :
    value? (fuel + 1) text = some (.object [], behind) := by
  rw [value?_brace h, hbehind]
  rfl

theorem value?_object (h : skip text = '{' :: rest) (hne : ∀ behind, skip rest ≠ '}' :: behind) :
    value? (fuel + 1) text =
      (fields? fuel (skip rest)).map fun (fields, rest) => (.object fields, rest) := by
  rw [value?_brace h]
  split
  · next heq => exact absurd heq (hne _)
  · rfl

theorem value?_number {d : Char} (h : skip text = d :: rest)
    (hd : d = '-' ∨ (Decimal.digit? d).isSome) : value? (fuel + 1) text =
      (literal? (d :: rest)).map fun (literal, rest) => (.number literal, rest) := by
  rw [value?, h]
  split
  case h_7 => rfl
  all_goals
    next heq =>
    obtain ⟨rfl, -⟩ := List.cons.inj heq
    exact absurd hd (by decide)

variable {item : Source}

theorem items?_bracket (hvalue : value? fuel text = some (item, rest))
    (hbehind : skip rest = ']' :: behind) : items? (fuel + 1) text = some ([item], behind) := by
  rw [items?, hvalue, Option.bind_eq_bind, Option.bind_some]
  dsimp only
  rw [hbehind]
  rfl

theorem items?_comma (hvalue : value? fuel text = some (item, rest))
    (hbehind : skip rest = ',' :: behind) : items? (fuel + 1) text =
      (items? fuel behind).map fun (items, rest) => (item :: items, rest) := by
  rw [items?, hvalue, Option.bind_eq_bind, Option.bind_some, Option.map_eq_bind]
  dsimp only
  rw [hbehind]
  rfl

variable {name : Option String} {quoted colon start : List Char}

/-- After a name, a colon and a value a brace ends the fields or a comma goes on to the next. -/
theorem fields?_field (hquoted : skip text = '"' :: quoted)
    (hname : string? quoted = some (name, colon)) (hcolon : skip colon = ':' :: start)
    (hvalue : value? fuel start = some (item, rest)) :
    fields? (fuel + 1) text =
      match skip rest with
      | '}' :: behind => some ([(name, item)], behind)
      | ',' :: behind =>
          (fields? fuel behind).map fun (fields, rest) => ((name, item) :: fields, rest)
      | _ => none := by
  rw [fields?, hquoted]
  change (string? quoted).bind _ = _
  rw [hname, Option.bind_some]
  dsimp only
  rw [hcolon]
  change (value? fuel start).bind _ = _
  rw [hvalue, Option.bind_some]
  simp only [Option.map_eq_bind]
  rfl

end Start

/-- What is not empty and starts with some character still does with more text behind it. -/
theorem ne_cons_append {start more : List Char} {d : Char} (hstart : start ≠ [])
    (hne : ∀ behind, start ≠ d :: behind) (behind : List Char) : start ++ more ≠ d :: behind := by
  obtain ⟨e, start, rfl⟩ := List.exists_cons_of_ne_nil hstart
  intro heq
  rw [List.cons_append] at heq
  exact hne start (by rw [(List.cons.inj heq).1])

namespace GoesOn

variable {fuel fuel' : ℕ}

/-- What is read behind the start of an array or an object is left over with what follows it. -/
theorem value?_succ {result : Source × List Char} (hgo : GoesOn fuel)
    (hfuel : fuel ≤ fuel') (hc : EndsItem c) (h : value? (fuel + 1) text = some result)
    (more : List Char) :
    value? (fuel' + 1) (text ++ c :: more) = some (followedBy (c :: more) result) := by
  have hskip := skip_append (skip_ne_nil h) (c :: more)
  rw [value?] at h
  split at h
  case h_1 heq | h_2 heq | h_3 heq =>
    cases h
    rw [value?, hskip, heq]
    rfl
  case h_4 rest heq =>
    obtain ⟨string, hstring, rfl⟩ := Option.map_eq_some_iff.mp h
    rw [heq, List.cons_append] at hskip
    rw [value?_string hskip, string?_append hstring]
    rfl
  case h_5 rest heq =>
    rw [heq, List.cons_append] at hskip
    split at h
    · next behind hbehind =>
      cases h
      exact value?_emptyArray hskip (skip_append_of_eq hbehind)
    · next hne =>
      obtain ⟨items, hitems, rfl⟩ := Option.map_eq_some_iff.mp h
      have hrest : skip rest ≠ [] := by
        rw [← skip_skip]
        exact items?_skip_ne_nil hitems
      rw [value?_array hskip, skip_append hrest, hgo.items hfuel hc hitems]
      · rfl
      · rw [skip_append hrest]
        exact ne_cons_append hrest hne
  case h_6 rest heq =>
    rw [heq, List.cons_append] at hskip
    split at h
    · next behind hbehind =>
      cases h
      exact value?_emptyObject hskip (skip_append_of_eq hbehind)
    · next hne =>
      obtain ⟨fields, hfields, rfl⟩ := Option.map_eq_some_iff.mp h
      have hrest : skip rest ≠ [] := by
        rw [← skip_skip]
        exact fields?_skip_ne_nil hfields
      rw [value?_object hskip, skip_append hrest, hgo.fields hfuel hc hfields]
      · rfl
      · rw [skip_append hrest]
        exact ne_cons_append hrest hne
  case h_7 =>
    obtain ⟨literal, hliteral, rfl⟩ := Option.map_eq_some_iff.mp h
    obtain ⟨d, rest, heq, hd⟩ := exists_of_literal? hliteral
    rw [heq, List.cons_append] at hskip
    rw [heq] at hliteral
    rw [value?_number hskip hd, ← List.cons_append, hc.literal?_append, hliteral]
    rfl

/-- What is left behind an item starts with a comma or the closing bracket. -/
theorem items?_succ {result : List Source × List Char} (hgo : GoesOn fuel)
    (hfuel : fuel ≤ fuel') (hc : EndsItem c) (h : items? (fuel + 1) text = some result)
    (more : List Char) :
    items? (fuel' + 1) (text ++ c :: more) = some (followedBy (c :: more) result) := by
  rw [items?, Option.bind_eq_bind, Option.bind_eq_some_iff] at h
  obtain ⟨⟨item, rest⟩, hvalue, h⟩ := h
  have hitem := hgo.value hfuel hc hvalue more
  dsimp only at h
  split at h
  · next behind hbehind =>
    cases h
    exact items?_bracket hitem (skip_append_of_eq hbehind)
  · next behind hbehind =>
    rw [Option.bind_eq_bind, Option.bind_eq_some_iff] at h
    obtain ⟨⟨items, rest⟩, hitems, h⟩ := h
    cases h
    rw [items?_comma hitem (skip_append_of_eq hbehind), hgo.items hfuel hc hitems]
    rfl
  · cases h

theorem fields?_succ {result : List (Option String × Source) × List Char} (hgo : GoesOn fuel)
    (hfuel : fuel ≤ fuel') (hc : EndsItem c) (h : fields? (fuel + 1) text = some result)
    (more : List Char) :
    fields? (fuel' + 1) (text ++ c :: more) = some (followedBy (c :: more) result) := by
  rw [fields?] at h
  split at h
  · next quoted hquoted =>
    rw [Option.bind_eq_bind, Option.bind_eq_some_iff] at h
    obtain ⟨⟨name, colon⟩, hname, h⟩ := h
    have hquoted' : skip (text ++ c :: more) = '"' :: (quoted ++ c :: more) :=
      skip_append_of_eq hquoted
    have hname' := string?_append hname (c :: more)
    dsimp only at h
    split at h
    · next start hcolon =>
      rw [Option.bind_eq_bind, Option.bind_eq_some_iff] at h
      obtain ⟨⟨value, rest⟩, hvalue, h⟩ := h
      have hcolon' : skip (colon ++ c :: more) = ':' :: (start ++ c :: more) :=
        skip_append_of_eq hcolon
      have hvalue' := hgo.value hfuel hc hvalue more
      dsimp only at h
      split at h
      · next behind hbehind =>
        cases h
        rw [fields?_field hquoted' hname' hcolon' hvalue', skip_append_of_eq hbehind]
        rfl
      · next behind hbehind =>
        rw [Option.bind_eq_bind, Option.bind_eq_some_iff] at h
        obtain ⟨⟨fields, rest⟩, hfields, h⟩ := h
        cases h
        have hfields' := hgo.fields hfuel hc hfields more
        rw [fields?_field hquoted' hname' hcolon' hvalue', skip_append_of_eq hbehind]
        exact Option.map_eq_some_iff.mpr ⟨_, hfields', rfl⟩
      · cases h
    · cases h
  · cases h

end GoesOn

theorem goesOn (fuel : ℕ) : GoesOn fuel := by
  induction fuel with
  | zero => exact goesOn_zero
  | succ fuel ih =>
      constructor
      case value =>
        intro fuel' text result c hfuel hc h more
        obtain ⟨fuel', rfl⟩ := Nat.exists_eq_add_of_le' (Nat.one_le_of_lt hfuel)
        exact ih.value?_succ (Nat.le_of_succ_le_succ hfuel) hc h more
      case items =>
        intro fuel' text result c hfuel hc h more
        obtain ⟨fuel', rfl⟩ := Nat.exists_eq_add_of_le' (Nat.one_le_of_lt hfuel)
        exact ih.items?_succ (Nat.le_of_succ_le_succ hfuel) hc h more
      case fields =>
        intro fuel' text result c hfuel hc h more
        obtain ⟨fuel', rfl⟩ := Nat.exists_eq_add_of_le' (Nat.one_le_of_lt hfuel)
        exact ih.fields?_succ (Nat.le_of_succ_le_succ hfuel) hc h more

/-! ## Items -/

/-- What a text that is a document leaves over is white space. -/
theorem exists_of_ofText? {source : Source} (h : ofText? text = some source) :
    ∃ rest, value? (2 * text.length + 2) text = some (source, rest) ∧ skip rest = [] := by
  rw [ofText?] at h
  split at h
  · next source' rest hvalue =>
    split at h
    · next hrest =>
      cases h
      exact ⟨rest, hvalue, List.isEmpty_iff.mp hrest⟩
    · cases h
  · cases h

/-- Behind a text that is a document what follows is next. -/
theorem value?_of_ofText? {source : Source} (h : ofText? text = some source) {fuel : ℕ}
    (hfuel : 2 * text.length + 2 ≤ fuel) (hc : EndsItem c) (more : List Char) :
    ∃ rest, value? fuel (text ++ c :: more) = some (source, rest) ∧ skip rest = c :: more := by
  obtain ⟨rest, hvalue, hrest⟩ := exists_of_ofText? h
  exact ⟨rest ++ c :: more, (goesOn _).value hfuel hc hvalue more, hc.skip_eq hrest more⟩

/-- Documents with commas between them and a bracket behind the last are the items of an array. -/
theorem items?_intercalate {texts : List (List Char)} {sources : List Source}
    (h : List.Forall₂ (fun text source => ofText? text = some source) texts sources)
    (hne : texts ≠ []) {fuel : ℕ} (hfuel : 2 * ([','].intercalate texts).length + 3 ≤ fuel)
    (more : List Char) :
    items? fuel ([','].intercalate texts ++ ']' :: more) = some (sources, more) := by
  induction h generalizing fuel with
  | nil => exact absurd rfl hne
  | @cons text source texts sources hsource hrest ih =>
      obtain ⟨fuel, rfl⟩ := Nat.exists_eq_add_of_le' (Nat.one_le_of_lt hfuel)
      cases hrest with
      | nil =>
          rw [List.intercalate_singleton] at hfuel ⊢
          obtain ⟨rest, hvalue, hskip⟩ :=
            value?_of_ofText? hsource (by omega : _ ≤ fuel) (Or.inr rfl) more
          exact items?_bracket hvalue hskip
      | @cons text' source' texts sources hsource' hrest =>
          rw [List.intercalate_cons_cons] at hfuel ⊢
          simp only [List.length_append, List.length_singleton] at hfuel
          obtain ⟨rest, hvalue, hskip⟩ := value?_of_ofText? hsource (by omega : _ ≤ fuel)
            (Or.inl rfl) ([','].intercalate (text' :: texts) ++ ']' :: more)
          rw [List.append_assoc, List.append_assoc, List.singleton_append,
            items?_comma hvalue hskip, ih (List.cons_ne_nil _ _) (by omega)]
          rfl

theorem items?_skip (fuel : ℕ) (text : List Char) : items? fuel (skip text) = items? fuel text := by
  cases fuel with
  | zero => rfl
  | succ fuel =>
      have hvalue : value? fuel (skip text) = value? fuel text := by
        cases fuel with
        | zero => rfl
        | succ fuel => rw [value?, value?, skip_skip]
      rw [items?, items?, hvalue]

/-- No item starts with the closing bracket. -/
theorem skip_ne_bracket {fuel : ℕ} {result : List Source × List Char}
    (h : items? fuel text = some result) (behind : List Char) : skip text ≠ ']' :: behind := by
  intro hskip
  cases fuel with
  | zero => cases h
  | succ fuel =>
      rw [items?, Option.bind_eq_bind, Option.bind_eq_some_iff] at h
      obtain ⟨_, hvalue, -⟩ := h
      cases fuel with
      | zero => cases hvalue
      | succ fuel =>
          rw [value?, hskip] at hvalue
          cases hvalue

theorem value?_intercalate {texts : List (List Char)} {sources : List Source}
    (h : List.Forall₂ (fun text source => ofText? text = some source) texts sources) {fuel : ℕ}
    (hfuel : 2 * ([','].intercalate texts).length + 3 ≤ fuel) :
    value? (fuel + 1) ('[' :: ([','].intercalate texts ++ [']'])) = some (.array sources, []) := by
  by_cases hne : texts = []
  · subst hne
    cases h
    exact value?_emptyArray rfl rfl
  · have hitems := items?_intercalate h hne hfuel []
    rw [value?_array rfl (skip_ne_bracket hitems), items?_skip, hitems]
    rfl

/-- The array of some documents, with commas between them. -/
def arrayText (texts : List String) : String :=
  "[" ++ ",".intercalate texts ++ "]"

/-- Texts of documents make up the text of their array. -/
theorem ofText?_arrayText {texts : List String} {sources : List Source}
    (h : List.Forall₂ (fun text source => ofText? text.toList = some source) texts sources) :
    ofText? (arrayText texts).toList = some (.array sources) := by
  have htext : (arrayText texts).toList =
      '[' :: ([','].intercalate (texts.map String.toList) ++ [']']) := by
    rw [arrayText, String.toList_append, String.toList_append, String.toList_intercalate]
    rfl
  have hfuel : 2 * ([','].intercalate (texts.map String.toList)).length + 3 ≤
      2 * (arrayText texts).toList.length + 1 := by
    rw [htext, List.length_cons, List.length_append]
    omega
  have hvalue := value?_intercalate (List.forall₂_map_left_iff.mpr h) hfuel
  rw [← htext] at hvalue
  rw [ofText?, hvalue]
  rfl

end Significance.Json.Source
