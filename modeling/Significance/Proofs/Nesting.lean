import Significance.Proofs.Parentheses
import Significance.Proofs.Partition

/-! # Nested parentheses

The removal of parenthesised parts keeps no depth: a part ends at the first closing parenthesis. So
of a label whose parentheses are balanced it leaves the text outside of all of them exactly if no
parenthesis opens inside of another; after a nested one a closing parenthesis is left over. -/

namespace Significance

open Success

namespace Text

/-! ## Depth -/

/-- How many parentheses are open after a character, from how many are open before it. -/
def depthAfter (depth : ℕ) (c : Char) : ℕ :=
  if c = '(' then depth + 1 else if c = ')' then depth - 1 else depth

/-- Each parenthesis of the text has its partner; `depth` have been opened before it. -/
def isBalanced (depth : ℕ) : List Char → Bool
  | [] => depth = 0
  | c :: rest => (c ≠ ')' || 0 < depth) && isBalanced (depthAfter depth c) rest

/-- No parenthesis opens inside of another one. -/
def isFlat (depth : ℕ) : List Char → Bool
  | [] => true
  | c :: rest => depthAfter depth c ≤ 1 && isFlat (depthAfter depth c) rest

/-- The text outside of all parentheses. -/
def outside (depth : ℕ) : List Char → List Char
  | [] => []
  | c :: rest =>
    if depth = 0 ∧ c ≠ '(' ∧ c ≠ ')' then c :: outside depth rest
    else outside (depthAfter depth c) rest

/-- A label without the text in parentheses, of any depth, and without white space around it. -/
def outsideOf (label : String) : String :=
  String.ofList (trimChars (outside 0 label.toList))

section

variable {c : Char} {rest : List Char} {depth : ℕ} {inside : Bool}

/-! ### One character -/

@[simp] theorem isBalanced_open :
    isBalanced depth ('(' :: rest) = isBalanced (depth + 1) rest := rfl

@[simp] theorem isBalanced_close :
    isBalanced depth (')' :: rest) = (decide (0 < depth) && isBalanced (depth - 1) rest) := rfl

@[simp] theorem isFlat_open :
    isFlat depth ('(' :: rest) = (decide (depth = 0) && isFlat (depth + 1) rest) := by
  simp [isFlat, depthAfter]

@[simp] theorem outside_open : outside depth ('(' :: rest) = outside (depth + 1) rest := by
  simp [outside, depthAfter]

@[simp] theorem outside_close : outside depth (')' :: rest) = outside (depth - 1) rest := by
  simp [outside, depthAfter]

theorem dropParenthesized_open (h : ')' ∈ rest) :
    dropParenthesized inside ('(' :: rest) = dropParenthesized true rest := by
  cases inside <;> simp [dropParenthesized, h]

@[simp] theorem dropParenthesized_close : dropParenthesized inside (')' :: rest) =
    if inside then dropParenthesized false rest else ')' :: dropParenthesized false rest := by
  cases inside <;> simp [dropParenthesized]

variable (hopen : c ≠ '(') (hclose : c ≠ ')')

include hopen hclose

theorem isBalanced_other : isBalanced depth (c :: rest) = isBalanced depth rest := by
  simp [isBalanced, depthAfter, hopen, hclose]

theorem isFlat_other (hdepth : depth ≤ 1) : isFlat depth (c :: rest) = isFlat depth rest := by
  simp [isFlat, depthAfter, hopen, hclose, hdepth]

theorem outside_other : outside depth (c :: rest) =
    if depth = 0 then c :: outside depth rest else outside depth rest := by
  by_cases hdepth : depth = 0 <;> simp [outside, depthAfter, hopen, hclose, hdepth]

theorem dropParenthesized_other : dropParenthesized inside (c :: rest) =
    if inside then dropParenthesized true rest else c :: dropParenthesized false rest := by
  have hne : (c != ')') = true := by simpa using hclose
  cases inside <;> simp [dropParenthesized, hopen, hne]

end

theorem ne_of_mem_outside {depth : ℕ} {c : Char} {text : List Char}
    (h : c ∈ outside depth text) : c ≠ '(' ∧ c ≠ ')' := by
  induction text generalizing depth with
  | nil => cases h
  | cons d rest ih =>
      rw [outside] at h
      split at h
      · next hd =>
        rcases List.mem_cons.mp h with rfl | h
        · exact hd.2
        · exact ih h
      · exact ih h

/-- A parenthesis that is open is closed later. -/
theorem close_mem_of_isBalanced {depth : ℕ} {text : List Char}
    (h : isBalanced (depth + 1) text = true) : ')' ∈ text := by
  induction text generalizing depth with
  | nil => cases h
  | cons c rest ih =>
      by_cases hclose : c = ')'
      · simp [hclose]
      · apply List.mem_cons_of_mem
        by_cases hopen : c = '('
        · rw [hopen, isBalanced_open] at h
          exact ih h
        · rw [isBalanced_other hopen hclose] at h
          exact ih h

/-! ## What is left over -/

/-- Where more parentheses are open than the removal knows of, a closing one is left over: the
removal ends its part at the first closing one, and so it is behind from there on. -/
theorem close_mem_of_lt {inside : Bool} {depth : ℕ} {text : List Char}
    (hbalanced : isBalanced depth text = true) (hdepth : inside.toNat < depth) :
    ')' ∈ dropParenthesized inside text := by
  induction text generalizing inside depth with
  | nil =>
      have hzero : depth = 0 := by simpa [isBalanced] using hbalanced
      omega
  | cons c rest ih =>
      by_cases hopen : c = '('
      · subst hopen
        rw [isBalanced_open] at hbalanced
        rw [dropParenthesized_open (close_mem_of_isBalanced hbalanced)]
        -- One more is open, and the removal is inside of one part as before.
        exact ih hbalanced (by cases inside <;> simp at hdepth ⊢ <;> omega)
      · by_cases hclose : c = ')'
        · subst hclose
          rw [isBalanced_close, Bool.and_eq_true] at hbalanced
          cases inside with
          | false => simp
          | true =>
              rw [Bool.toNat_true] at hdepth
              -- The part ends here for the removal, while a parenthesis is still open.
              have hbehind : false.toNat < depth - 1 := by
                rw [Bool.toNat_false]
                omega
              exact ih hbalanced.2 hbehind
        · rw [isBalanced_other hopen hclose] at hbalanced
          rw [dropParenthesized_other hopen hclose]
          cases inside with
          | false => exact List.mem_cons_of_mem _ (ih hbalanced hdepth)
          | true => exact ih hbalanced hdepth

/-- Without nested parentheses the removal is inside of a part where one is open, and leaves what is
outside. -/
theorem dropParenthesized_of_isBalanced {inside : Bool} {depth : ℕ} {text : List Char}
    (hbalanced : isBalanced depth text = true) (hdepth : inside.toNat = depth) :
    if isFlat depth text then dropParenthesized inside text = outside depth text
    else ')' ∈ dropParenthesized inside text := by
  induction text generalizing inside depth with
  | nil => rfl
  | cons c rest ih =>
      subst hdepth
      by_cases hopen : c = '('
      · subst hopen
        rw [isBalanced_open] at hbalanced
        rw [dropParenthesized_open (close_mem_of_isBalanced hbalanced), isFlat_open, outside_open]
        cases inside with
        | false => exact ih hbalanced rfl
        | true => exact close_mem_of_lt hbalanced (Nat.lt_succ_self 1)
      · by_cases hclose : c = ')'
        · subst hclose
          cases inside with
          | false => cases hbalanced
          | true =>
              rw [isBalanced_close, Bool.and_eq_true] at hbalanced
              rw [dropParenthesized_close, outside_close]
              exact ih hbalanced.2 rfl
        · rw [isBalanced_other hopen hclose] at hbalanced
          rw [dropParenthesized_other hopen hclose, outside_other hopen hclose,
            isFlat_other hopen hclose (Bool.toNat_le inside)]
          have hrest := ih hbalanced rfl
          cases inside with
          | true => exact hrest
          | false =>
              by_cases hflat : isFlat false.toNat rest = true
              · rw [if_pos hflat] at hrest ⊢
                rw [hrest]
                rfl
              · rw [if_neg hflat] at hrest ⊢
                exact List.mem_cons_of_mem _ hrest

/-! ## Balanced labels -/

theorem isBlank_close : isBlank ')' = false := by decide

theorem ne_of_mem_outsideOf {label : String} {c : Char} (h : c ∈ (outsideOf label).toList) :
    c ≠ '(' ∧ c ≠ ')' := by
  rw [outsideOf, String.toList_ofList] at h
  exact ne_of_mem_outside ((sublist_trimChars _).subset h)

theorem withoutParentheses_of_isFlat {label : String} (hbalanced : isBalanced 0 label.toList = true)
    (hflat : isFlat 0 label.toList = true) : withoutParentheses label = outsideOf label := by
  have hdrop := dropParenthesized_of_isBalanced hbalanced Bool.toNat_false
  rw [if_pos hflat] at hdrop
  rw [withoutParentheses, hdrop, outsideOf]

theorem close_mem_withoutParentheses {label : String}
    (hbalanced : isBalanced 0 label.toList = true) (hnested : isFlat 0 label.toList = false) :
    ')' ∈ (withoutParentheses label).toList := by
  have hdrop := dropParenthesized_of_isBalanced hbalanced Bool.toNat_false
  rw [hnested] at hdrop
  rw [toList_withoutParentheses]
  exact (mem_trimChars isBlank_close _).mpr hdrop

theorem no_parenthesis_iff {label : String} (hbalanced : isBalanced 0 label.toList = true) :
    (∀ c ∈ (withoutParentheses label).toList, c ≠ '(' ∧ c ≠ ')') ↔
      isFlat 0 label.toList = true := by
  constructor
  · intro h
    by_contra hnested
    rw [Bool.not_eq_true] at hnested
    exact (h ')' (close_mem_withoutParentheses hbalanced hnested)).2 rfl
  · intro hflat c hc
    rw [withoutParentheses_of_isFlat hbalanced hflat] at hc
    exact ne_of_mem_outsideOf hc

theorem withoutParentheses_eq_outsideOf_iff {label : String}
    (hbalanced : isBalanced 0 label.toList = true) :
    withoutParentheses label = outsideOf label ↔ isFlat 0 label.toList = true := by
  refine ⟨?_, withoutParentheses_of_isFlat hbalanced⟩
  intro h
  rw [← no_parenthesis_iff hbalanced, h]
  exact fun c => ne_of_mem_outsideOf

/-- A nested pair leaves a closing parenthesis of the text in parentheses. -/
theorem not_forall_outsideOf : ¬∀ label : String, isBalanced 0 label.toList = true →
    withoutParentheses label = outsideOf label := by
  intro h
  exact absurd (h "GA (p=(1))" (by decide +kernel)) (by decide +kernel)

end Text

namespace Sample

/-- Runs of one algorithm under two settings. -/
def settings : Dataset Float :=
  ⟨[priced 1 "a" "GA (pop=50)", priced 2 "a" "GA (pop=80)", priced 3 "b" "GA (pop=80)"]⟩

end Sample

namespace Comparison

open Text

/-! ## Hues by balanced labels -/

/-- Of a balanced hue label the text outside of all parentheses is left exactly if none is nested,
and exactly then no parenthesis is left. A record with such a label is in the series that this text
names, so labels that differ only inside parentheses share their series. -/
theorem series_of_balanced {α : Type} [Scalar α] {d : Distribution α} {data : Dataset α}
    {x y field : String} {options : Options α} {comparison : Comparison α}
    (hclean : options.cleanLabels = true)
    (hrun : run d data x y (some field) options = .ok comparison) :
    (∀ label : String, isBalanced 0 label.toList = true →
      (withoutParentheses label = outsideOf label ↔ isFlat 0 label.toList = true) ∧
      ((∀ c ∈ (withoutParentheses label).toList, c ≠ '(' ∧ c ≠ ')') ↔
        isFlat 0 label.toList = true)) ∧
    ∃ prepared yField points,
      (if options.normalize then Deviation.normalize data y options.reference options.sense
        else .ok (data, y)) = .ok (prepared, yField) ∧
      List.Forall₂ (Sees x yField (some field) true) prepared.records points ∧
      Partitions points comparison ∧
      ∀ record point label, (record, point) ∈ prepared.records.zip points →
        (record.get? field).bind Value.label? = some label →
        isBalanced 0 label.toList = true → isFlat 0 label.toList = true →
        ∃ group ∈ comparison.series (some (outsideOf label)), group.x = point.x ∧
          point.y ∈ valuesAt points group.x group.hue := by
  obtain ⟨prepared, yField, points, hprepared, hsees, hhue, rfl⟩ := exists_points_of_run hrun
  have hpartitions : Partitions points (ofColumns d x yField (some field) options.normalize
      (points.map Point.x) (points.map Point.hue) (points.map Point.y)) :=
    partitions_ofColumns hhue
  rw [hclean] at hsees
  refine ⟨fun label hbalanced => ⟨withoutParentheses_eq_outsideOf_iff hbalanced,
    no_parenthesis_iff hbalanced⟩, prepared, yField, points, hprepared, hsees, hpartitions, ?_⟩
  intro record point label hmem hlabel hbalanced hflat
  have hpoint : point ∈ points := (List.of_mem_zip hmem).2
  obtain ⟨own, hown, hname⟩ := ((List.forall₂_iff_zip.mp hsees).2 hmem).hue.2 field rfl
  obtain rfl := Option.some.inj (hlabel.symm.trans hown)
  rw [if_pos rfl, withoutParentheses_of_isFlat hbalanced hflat] at hname
  obtain ⟨group, hgroup, hx, hhue⟩ :=
    (hpartitions.exists_group_iff point.x point.hue).mpr ⟨point, hpoint, rfl, rfl⟩
  refine ⟨group, ?_, hx, ?_⟩
  · rw [series, List.mem_filter, decide_eq_true_eq, hhue, hname]
    exact ⟨hgroup, rfl⟩
  · rw [valuesAt, hx, hhue]
    exact List.mem_map_of_mem (List.mem_filter.mpr ⟨hpoint, by simp⟩)

open Sample in
/-- Runs under a setting in parentheses are in the series of their algorithm. -/
theorem series_of_balanced_settings :
    ∃ comparison, run Distribution.standard settings "costRpd" "cost" (some "group")
        ⟨false, none, .lowerIsBetter, true⟩ = .ok comparison ∧
      ∃ group ∈ comparison.series (some "GA"), group.x = "a" := by
  have hsome : ((run Distribution.standard settings "costRpd" "cost" (some "group")
      ⟨false, none, .lowerIsBetter, true⟩).toOption).isSome := by decide +kernel
  obtain ⟨comparison, hcomparison⟩ := Option.isSome_iff_exists.mp hsome
  have hrun := toOption_eq_some.mp hcomparison
  obtain ⟨-, prepared, yField, points, hprepared, hsees, -, hseries⟩ :=
    series_of_balanced rfl hrun
  cases hprepared
  cases hsees with
  | @cons _ point _ _ hsee _ =>
      obtain ⟨group, hgroup, hx, -⟩ :=
        hseries _ point "GA (pop=50)" List.mem_cons_self rfl (by decide +kernel)
          (by decide +kernel)
      have hname : Text.outsideOf "GA (pop=50)" = "GA" := by decide +kernel
      have hlabel : some "a" = some point.x := hsee.label
      rw [hname] at hgroup
      exact ⟨comparison, hrun, group, hgroup, hx.trans (Option.some.inj hlabel).symm⟩

end Comparison

end Significance
