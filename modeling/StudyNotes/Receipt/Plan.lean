import StudyNotes.Lists.SublistSums
import StudyNotes.Receipt.Program

namespace StudyNotes.Receipt.Plan

open Lists.SublistSums Program

variable {maxV : Nat}

theorem relax_get {cost V U : Nat} {hV : V < maxV + 1} {dp : Table maxV} (hU : U < maxV + 1) :
    (relax cost V hV dp)[U] = if V = U then relaxed dp cost V hV else dp[U] := by
  rw [relax, relaxed]
  split_ifs <;> simp_all [Vector.getElem_set]

/-- Going down, the loop reads only cells that it has not written yet. -/
theorem packDown_get {cost : Nat} (n : Nat) (hn : n ≤ maxV + 1) (dp : Table maxV) {U : Nat} (hU : U < maxV + 1) :
    (packDown cost n hn dp)[U] = if cost ≤ U ∧ U < n then relaxed dp cost U hU else dp[U] := by
  induction n generalizing dp with
  | zero => rw [packDown, if_neg (by omega)]
  | succ V ih =>
      rw [packDown]
      by_cases hc : V ≥ cost
      · rw [if_pos hc, ih]
        by_cases hUV : U = V
        · subst hUV
          rw [if_neg (by omega), relax_get, if_pos rfl, if_pos (by omega)]
        · by_cases hlt : cost ≤ U ∧ U < V
          · have hbelow : (relax cost V hn dp)[U - cost] = dp[U - cost] := by rw [relax_get, if_neg (by omega)]
            have hhere : (relax cost V hn dp)[U] = dp[U] := by rw [relax_get, if_neg (by omega)]
            rw [if_pos hlt, if_pos (by omega)]
            simp only [relaxed, hbelow, hhere]
          · rw [if_neg hlt, relax_get, if_neg (by omega), if_neg (by omega)]
      · rw [if_neg hc, if_neg (by omega)]

theorem zeroOnePack_get {item U : Nat} {dp : Table maxV} (hU : U < maxV + 1) :
    (zeroOnePack dp item)[U] = if item ≤ U then relaxed dp item U hU else dp[U] := by
  rw [zeroOnePack, packDown_get]
  exact if_congr (and_iff_left hU) rfl rfl

theorem packAll_concat (items : List Nat) (c : Nat) : packAll maxV (items ++ [c]) = zeroOnePack (packAll maxV items) c :=
  List.foldl_concat _ _ _ _

/-- Following the selected values down from V gives the values of out, last one first. -/
inductive Traces (dp : Table maxV) : Nat → List Nat → Prop
  | zero : Traces dp 0 []
  | select {V c : Nat} {out : List Nat} (hV : V < maxV + 1) (hvalue : dp[V].value = V) (hpos : 0 < c) (hle : c ≤ V)
      (hselect : dp[V].selectValue = c) (below : Traces dp (V - c) out) : Traces dp V (out ++ [c])

/-- What the table says after some items: a cell is filled exactly for the sums of
some of them, and leads to a choice of items with that sum. -/
structure Packed (items : List Nat) (dp : Table maxV) : Prop where
  filled : ∀ V (hV : V < maxV + 1), SumOf items V → dp[V].value = V
  blank : ∀ V (hV : V < maxV + 1), ¬SumOf items V → dp[V].value = -1
  traced : ∀ V, V < maxV + 1 → SumOf items V → ∃ out, Traces dp V out ∧ out.Sublist items ∧ out.sum = V

/-- Cells that are filled are never written again, so a trace stays. -/
theorem Traces.keep {dp dp' : Table maxV} {V : Nat} {out : List Nat} (h : Traces dp V out)
    (hkeep : ∀ U (hU : U < maxV + 1), dp[U].value = U → dp'[U] = dp[U]) : Traces dp' V out := by
  induction h with
  | zero => exact .zero
  | select hV hvalue hpos hle hselect _ ih =>
      refine .select hV ?_ hpos hle ?_ ih
      · rw [hkeep _ hV hvalue, hvalue]
      · rw [hkeep _ hV hvalue, hselect]

theorem packed_init : Packed [] (init maxV) where
  filled V hV h := by
    rw [sumOf_nil] at h
    subst h
    simp [init]
  blank V hV h := by
    rw [sumOf_nil] at h
    simp [init, Ne.symm h]
  traced V _ h := by
    rw [sumOf_nil] at h
    subst h
    exact ⟨[], .zero, List.Sublist.refl _, rfl⟩

section Step

variable {items : List Nat} {dp : Table maxV} {c V : Nat}

theorem Packed.keep (h : Packed items dp) (hV : V < maxV + 1) (hs : SumOf items V) :
    (zeroOnePack dp c)[V] = dp[V] := by
  rw [zeroOnePack_get]
  split_ifs with hc
  · rw [relaxed, if_neg]
    rintro ⟨hpos, hgt⟩
    have hhere := h.filled V hV hs
    by_cases hb : SumOf items (V - c)
    · rw [h.filled (V - c) (by omega) hb] at hgt
      omega
    · rw [h.blank (V - c) (by omega) hb] at hpos
      omega
  · rfl

/-- A cell that gets filled records the item just packed. -/
theorem Packed.fill (h : Packed items dp) (hV : V < maxV + 1) (hs : ¬SumOf items V) (hc : c ≤ V)
    (hb : SumOf items (V - c)) : (zeroOnePack dp c)[V] = ⟨V, c⟩ := by
  have hbelow := h.filled (V - c) (by omega) hb
  have hhere := h.blank V hV hs
  rw [zeroOnePack_get, if_pos hc, relaxed, if_pos (by omega), hbelow]
  congr 1
  omega

theorem Packed.leave (h : Packed items dp) (hV : V < maxV + 1) (hs : ¬SumOf (items ++ [c]) V) :
    (zeroOnePack dp c)[V] = dp[V] := by
  rw [zeroOnePack_get]
  split_ifs with hc
  · have hb : ¬SumOf items (V - c) := fun hb => hs (sumOf_concat.mpr (Or.inr ⟨hc, hb⟩))
    have hbelow := h.blank (V - c) (by omega) hb
    rw [relaxed, if_neg (by omega)]
  · rfl

theorem Packed.concat (h : Packed items dp) : Packed (items ++ [c]) (zeroOnePack dp c) := by
  have hkeep (U : Nat) (hU : U < maxV + 1) (hvalue : dp[U].value = U) : (zeroOnePack dp c)[U] = dp[U] := by
    refine h.keep hU ?_
    by_contra hs
    have hblank := h.blank U hU hs
    omega
  constructor
  case filled =>
    intro V hV hs
    by_cases hold : SumOf items V
    · rw [h.keep hV hold, h.filled V hV hold]
    · obtain ⟨hc, hb⟩ := (sumOf_concat.mp hs).resolve_left hold
      rw [h.fill hV hold hc hb]
  case blank =>
    intro V hV hs
    rw [h.leave hV hs]
    exact h.blank V hV (fun hold => hs (sumOf_concat.mpr (Or.inl hold)))
  case traced =>
    intro V hV hs
    by_cases hold : SumOf items V
    · obtain ⟨out, htrace, hsub, hsum⟩ := h.traced V hV hold
      exact ⟨out, htrace.keep hkeep, hsub.trans (List.sublist_append_left _ _), hsum⟩
    · obtain ⟨hc, hb⟩ := (sumOf_concat.mp hs).resolve_left hold
      obtain ⟨out, htrace, hsub, hsum⟩ := h.traced (V - c) (by omega) hb
      have hpos : 0 < c := by
        refine Nat.pos_of_ne_zero ?_
        rintro rfl
        exact hold hb
      refine ⟨out ++ [c], .select hV ?_ hpos hc ?_ (htrace.keep hkeep), hsub.append_right [c], ?_⟩
      · rw [h.fill hV hold hc hb]
      · rw [h.fill hV hold hc hb]
      · rw [List.sum_append, List.sum_singleton, hsum]
        omega

end Step

theorem packed_all (items : List Nat) : Packed items (packAll maxV items) := by
  induction items using List.reverseRecOn with
  | nil => exact packed_init
  | append_singleton items c ih =>
      rw [packAll_concat]
      exact ih.concat

theorem traces_print {dp : Table maxV} {V : Nat} {out : List Nat} (h : Traces dp V out) {fuel : Nat}
    (hfuel : V < fuel) : recursivePrintPlan dp fuel V = some (out.map Int.ofNat) := by
  induction h generalizing fuel with
  | zero =>
      obtain ⟨fuel, rfl⟩ := Nat.exists_eq_succ_of_ne_zero (by omega : fuel ≠ 0)
      rfl
  | @select V c out hV hvalue hpos hle hselect _ ih =>
      obtain ⟨fuel, rfl⟩ := Nat.exists_eq_succ_of_ne_zero (by omega : fuel ≠ 0)
      have hcell : dp[(V : Int).toNat]? = some dp[V] := by rw [Int.toNat_natCast, Vector.getElem?_eq_getElem hV]
      have hnext : (V : Int) - c = (V - c : Nat) := by omega
      rw [recursivePrintPlan, if_pos (by omega), hcell]
      change (recursivePrintPlan dp fuel (V - dp[V].selectValue)).bind _ = _
      rw [hselect, hnext, ih (by omega)]
      simp

theorem sumOf_of_marked {items : List Nat} {V : Nat} (hV : V < maxV + 1) (h : (packAll maxV items)[V].value ≥ 0) :
    SumOf items V := by
  by_contra hs
  rw [(packed_all items).blank V hV hs] at h
  omega

/-- From a marked amount the recursion ends and prints some of the items, in
their order, that add up to the amount. -/
theorem printed_plan (maxV : Nat) (items : List Nat) (V : Nat) (hV : V < maxV + 1)
    (hmark : (packAll maxV items)[V].value ≥ 0) :
    ∃ out : List Nat, out.Sublist items ∧ out.sum = V ∧
      ∀ fuel, V < fuel → recursivePrintPlan (packAll maxV items) fuel V = some (out.map Int.ofNat) := by
  obtain ⟨out, htrace, hsub, hsum⟩ := (packed_all items).traced V hV (sumOf_of_marked hV hmark)
  exact ⟨out, hsub, hsum, fun fuel hfuel => traces_print htrace hfuel⟩

theorem printed_plan_five : (packAll 6 [2, 2, 3])[5].value ≥ 0 ∧
    ∃ out : List Nat, out.Sublist [2, 2, 3] ∧ out.sum = 5 ∧
      ∀ fuel, 5 < fuel → recursivePrintPlan (packAll 6 [2, 2, 3]) fuel 5 = some (out.map Int.ofNat) := by
  have hmark : (packAll 6 [2, 2, 3])[5].value ≥ 0 := by decide
  exact ⟨hmark, printed_plan 6 [2, 2, 3] 5 (by decide) hmark⟩

section Scan

variable {items : List Nat} {destV i : Nat}

theorem cell_hit (hpos : 0 < i) (hi : i < maxV + 1) :
    ((packAll maxV items)[i]?.any fun cell => cell.value > 0) = true ↔ SumOf items i := by
  rw [Vector.getElem?_eq_getElem hi, Option.any_some, decide_eq_true_eq]
  by_cases hs : SumOf items i
  · rw [(packed_all items).filled i hi hs]
    exact iff_of_true (by omega) hs
  · rw [(packed_all items).blank i hi hs]
    exact iff_of_false (by omega) hs

/-- The amount is the smallest one from DEST_V to MAX_V that some of the items make up. -/
def Smallest (maxV destV : Nat) (items : List Nat) (V : Nat) : Prop :=
  destV ≤ V ∧ V ≤ maxV ∧ SumOf items V ∧ ∀ U, destV ≤ U → SumOf items U → V ≤ U

theorem scan_iff (hpos : 0 < destV) : scan (packAll maxV items) destV = some i ↔ Smallest maxV destV items i := by
  rw [scan, List.find?_range'_eq_some, List.mem_range'_1]
  constructor
  · rintro ⟨hhit, ⟨hd, hi⟩, hfirst⟩
    refine ⟨hd, by omega, (cell_hit (by omega) (by omega)).mp hhit, fun U hU hs => ?_⟩
    by_contra hlt
    have hmiss := hfirst U hU (by omega)
    rw [(cell_hit (by omega) (by omega)).mpr hs] at hmiss
    cases hmiss
  · rintro ⟨hd, hi, hs, hleast⟩
    refine ⟨(cell_hit (by omega) (by omega)).mpr hs, ⟨hd, by omega⟩, fun j hj hji => ?_⟩
    rw [Bool.not_eq_true', Bool.eq_false_iff]
    intro hhit
    have hle := hleast j hj ((cell_hit (by omega) (by omega)).mp hhit)
    omega

theorem main_eq (hpos : 0 < destV) :
    main maxV destV items = (scan (packAll maxV items) destV).map fun V : Nat =>
      ((V : Int), recursivePrintPlan (packAll maxV items) (maxV + 1) V) := by
  rw [main]
  cases hscan : scan (packAll maxV items) destV with
  | none => rfl
  | some V =>
      obtain ⟨-, hV, hs, -⟩ := (scan_iff hpos).mp hscan
      have hcell : (packAll maxV items)[V]? = some (packAll maxV items)[V] := Vector.getElem?_eq_getElem (by omega)
      have hvalue : (packAll maxV items)[V].value = V := (packed_all items).filled V (by omega) hs
      simp [hcell, hvalue]

theorem scan_none (hpos : 0 < destV) :
    scan (packAll maxV items) destV = none ↔ ¬∃ V, destV ≤ V ∧ V ≤ maxV ∧ SumOf items V := by
  rw [scan, List.find?_eq_none]
  constructor
  · rintro hnone ⟨V, hd, hV, hs⟩
    exact hnone V (List.mem_range'_1.mpr ⟨hd, by omega⟩) ((cell_hit (by omega) (by omega)).mpr hs)
  · intro hno V hmem hhit
    obtain ⟨hd, hV⟩ := List.mem_range'_1.mp hmem
    exact hno ⟨V, hd, by omega, (cell_hit (by omega) (by omega)).mp hhit⟩

theorem scan_perm {items' : List Nat} (hpos : 0 < destV) (h : items.Perm items') :
    scan (packAll maxV items') destV = scan (packAll maxV items) destV := by
  have hsum (V : Nat) : SumOf items' V ↔ SumOf items V := ⟨SumOf.perm h.symm, SumOf.perm h⟩
  apply Option.ext
  intro V
  rw [scan_iff hpos, scan_iff hpos, Smallest, Smallest]
  simp only [hsum]

end Scan

/-- Whatever amount main reports, the plan below it is printed in full and is valid. -/
theorem main_plan {maxV destV : Nat} {items : List Nat} {r : Int} {plan : Option (List Int)} (hpos : 0 < destV)
    (h : main maxV destV items = some (r, plan)) :
    ∃ out : List Nat, plan = some (out.map Int.ofNat) ∧ out.Sublist items ∧ (out.sum : Int) = r := by
  rw [main_eq hpos, Option.map_eq_some_iff] at h
  obtain ⟨V, hscan, heq⟩ := h
  obtain ⟨-, hV, hs, -⟩ := (scan_iff hpos).mp hscan
  have hlt : V < maxV + 1 := by omega
  obtain ⟨out, htrace, hsub, hsum⟩ := (packed_all items).traced V hlt hs
  rw [traces_print htrace (by omega)] at heq
  cases heq
  exact ⟨out, rfl, hsub, by rw [hsum]⟩

/-- The table is right for every list of items, and main reports the least amount
within the limits that some of them make up, in whatever order they come. -/
theorem minimum_reported (maxV destV : Nat) (items : List Nat) (hpos : 0 < destV) :
    (∀ V (hV : V < maxV + 1), ((packAll maxV items)[V].value = V ↔ SumOf items V) ∧
      (¬SumOf items V → (packAll maxV items)[V].value = -1)) ∧
    (∀ r, (main maxV destV items).map Prod.fst = some r ↔ ∃ V : Nat, r = V ∧ Smallest maxV destV items V) ∧
    (main maxV destV items = none ↔ ¬∃ V, destV ≤ V ∧ V ≤ maxV ∧ SumOf items V) ∧
    ∀ items', items.Perm items' → (main maxV destV items').map Prod.fst = (main maxV destV items).map Prod.fst := by
  refine ⟨fun V hV => ⟨⟨fun h => ?_, (packed_all items).filled V hV⟩, (packed_all items).blank V hV⟩, fun r => ?_, ?_,
    fun items' h => ?_⟩
  · exact sumOf_of_marked hV (by omega)
  · simp only [main_eq hpos, Option.map_map, Option.map_eq_some_iff, scan_iff hpos, Function.comp_apply]
    exact exists_congr (fun V => and_comm.trans (and_congr_left' eq_comm))
  · rw [main_eq hpos, Option.map_eq_none_iff, scan_none hpos]
  · rw [main_eq hpos, main_eq hpos, scan_perm hpos h, Option.map_map, Option.map_map]
    rfl

theorem minimum_reported_four : 0 < 4 ∧ ((main 6 4 [3, 2, 3]).map Prod.fst = some 5 ↔
    ∃ V : Nat, (5 : Int) = V ∧ Smallest 6 4 [3, 2, 3] V) :=
  ⟨by decide, (minimum_reported 6 4 [3, 2, 3] (by decide)).2.1 5⟩

end StudyNotes.Receipt.Plan
