import Mathlib.Data.List.DropRight
import Mathlib.Data.List.Nodup
import Mathlib.Data.Set.Function

/-!
# Sequential explanations of a set of operations

A sequential object has a state, a transition for each operation, and a relation saying which
answers are legal in which state. A set of operations is *serializable* when some total order
enumerates it, respects a given precedence, and is legal from the initial state. Linearizability
and sequential consistency are this notion for two precedences.

`Serializable.mono` weakens the precedence. `serializable_image_iff` renames the operations along
a map that is injective on them. `Serializable.upTo` cuts an order behind the last of some of its
operations. `exists_refill` rearranges an order within the classes of a colouring, which keeps it
legal when operations of one colour behave alike.
-/

set_option autoImplicit false
set_option relaxedAutoImplicit false

namespace Propsim.Foundation

variable {ι κ σ : Type*}

/-- A list enumerates a set: it has no repetition and its members are those of the set. -/
def Enumerates (operations : Set ι) (order : List ι) : Prop :=
  order.Nodup ∧ ∀ operation, operation ∈ order ↔ operation ∈ operations

/-- A list respects a precedence: nothing stands before something that must precede it. -/
def Respects (before : ι → ι → Prop) (order : List ι) : Prop :=
  order.Pairwise fun first second ↦ ¬ before second first

/-- A list is legal from a state: every operation finds an acceptable answer in the state left by
the operations before it. -/
def Legal (step : σ → ι → σ) (answers : σ → ι → Prop) : σ → List ι → Prop
  | _, [] => True
  | state, operation :: rest =>
    answers state operation ∧ Legal step answers (step state operation) rest

/-- Some total order of the operations respects the precedence and is legal from `init`. -/
def Serializable (operations : Set ι) (before : ι → ι → Prop) (step : σ → ι → σ)
    (answers : σ → ι → Prop) (init : σ) : Prop :=
  ∃ order, Enumerates operations order ∧ Respects before order ∧ Legal step answers init order

@[simp] theorem legal_nil (step : σ → ι → σ) (answers : σ → ι → Prop) (state : σ) :
    Legal step answers state [] := trivial

@[simp] theorem legal_cons (step : σ → ι → σ) (answers : σ → ι → Prop) (state : σ)
    (operation : ι) (rest : List ι) :
    Legal step answers state (operation :: rest) ↔
      answers state operation ∧ Legal step answers (step state operation) rest := Iff.rfl

/-- Legality of a renamed order is legality of the order for the renamed object. -/
theorem legal_map (step : σ → κ → σ) (answers : σ → κ → Prop) (rename : ι → κ) (order : List ι)
    (state : σ) :
    Legal step answers state (order.map rename) ↔
      Legal (fun s i ↦ step s (rename i)) (fun s i ↦ answers s (rename i)) state order := by
  induction order generalizing state with
  | nil => simp
  | cons operation rest ih => simp [ih]

/-- Legality depends only on the transition and the answers at the listed operations. -/
theorem legal_congr {step step' : σ → ι → σ} {answers answers' : σ → ι → Prop} {order : List ι}
    (hstep : ∀ operation ∈ order, ∀ state, step state operation = step' state operation)
    (hanswers : ∀ operation ∈ order, ∀ state,
      answers state operation ↔ answers' state operation) (state : σ) :
    Legal step answers state order ↔ Legal step' answers' state order := by
  induction order generalizing state with
  | nil => simp
  | cons operation rest ih =>
    have hrest := ih (fun o ho ↦ hstep o (List.mem_cons_of_mem _ ho))
      (fun o ho ↦ hanswers o (List.mem_cons_of_mem _ ho)) (step' state operation)
    rw [legal_cons, legal_cons, hanswers operation (by simp) state,
      hstep operation (by simp) state, hrest]

/-- An order that is legal stays so when more answers are acceptable. -/
theorem Legal.mono {step : σ → ι → σ} {answers answers' : σ → ι → Prop} {order : List ι}
    (hweaker : ∀ state operation, answers state operation → answers' state operation) {state : σ}
    (h : Legal step answers state order) : Legal step answers' state order := by
  induction order generalizing state with
  | nil => trivial
  | cons operation rest ih => exact ⟨hweaker _ _ h.1, ih h.2⟩

/-- Serializability for a precedence gives it for every weaker one. -/
theorem Serializable.mono {operations : Set ι} {before before' : ι → ι → Prop}
    {step : σ → ι → σ} {answers : σ → ι → Prop} {init : σ}
    (hweaker : ∀ first second, before' first second → before first second)
    (h : Serializable operations before step answers init) :
    Serializable operations before' step answers init := by
  obtain ⟨order, henum, hrespects, hlegal⟩ := h
  exact ⟨order, henum, hrespects.imp fun hnot hbefore ↦ hnot (hweaker _ _ hbefore), hlegal⟩

/-- Serializability depends only on the precedence, the transition and the answers at the listed
operations. -/
theorem serializable_congr {operations : Set ι} {before before' : ι → ι → Prop}
    {step step' : σ → ι → σ} {answers answers' : σ → ι → Prop}
    (hbefore : ∀ first ∈ operations, ∀ second ∈ operations,
      before first second ↔ before' first second)
    (hstep : ∀ operation ∈ operations, ∀ state, step state operation = step' state operation)
    (hanswers : ∀ operation ∈ operations, ∀ state,
      answers state operation ↔ answers' state operation) (init : σ) :
    Serializable operations before step answers init ↔
      Serializable operations before' step' answers' init := by
  refine exists_congr fun order ↦ and_congr_right fun henum ↦ and_congr ?_ ?_
  · have hin (operation : ι) (h : operation ∈ order) : operation ∈ operations :=
      (henum.2 operation).mp h
    constructor
    · exact fun h ↦ h.imp_of_mem fun hfirst hsecond ↦
        (not_congr (hbefore _ (hin _ hsecond) _ (hin _ hfirst))).mp
    · exact fun h ↦ h.imp_of_mem fun hfirst hsecond ↦
        (not_congr (hbefore _ (hin _ hsecond) _ (hin _ hfirst))).mpr
  · exact legal_congr (fun o ho ↦ hstep o ((henum.2 o).mp ho))
      (fun o ho ↦ hanswers o ((henum.2 o).mp ho)) init

/-- A precedence on renamed operations is respected by a renamed order exactly when the order
respects the precedence pulled back along the renaming. -/
theorem respects_map (before : κ → κ → Prop) (rename : ι → κ) (order : List ι) :
    Respects before (order.map rename) ↔
      Respects (fun first second ↦ before (rename first) (rename second)) order := by
  simp only [Respects, List.pairwise_map]

/-- Renaming the operations along a map that is injective on them preserves serializability in
both directions. -/
theorem serializable_image_iff {operations : Set ι} {rename : ι → κ}
    (hinjective : Set.InjOn rename operations) (before : κ → κ → Prop) (step : σ → κ → σ)
    (answers : σ → κ → Prop) (init : σ) :
    Serializable (rename '' operations) before step answers init ↔
      Serializable operations (fun first second ↦ before (rename first) (rename second))
        (fun s i ↦ step s (rename i)) (fun s i ↦ answers s (rename i)) init := by
  constructor
  · rintro ⟨order, ⟨hnodup, hmem⟩, hrespects, hlegal⟩
    -- every renamed operation has an original, so the whole order is the image of one
    have hlift : ∃ original : List ι, original.map rename = order ∧
        ∀ operation ∈ original, operation ∈ operations := by
      have hsource : ∀ target ∈ order, ∃ operation ∈ operations, rename operation = target :=
        fun target htarget ↦ (hmem target).mp htarget
      clear hnodup hmem hrespects hlegal
      induction order with
      | nil => exact ⟨[], rfl, by simp⟩
      | cons target rest ih =>
        obtain ⟨operation, hoperation, hrename⟩ := hsource target (by simp)
        obtain ⟨original, hmap, hall⟩ := ih fun t ht ↦ hsource t (List.mem_cons_of_mem _ ht)
        exact ⟨operation :: original, by simp [hrename, hmap],
          by simpa using ⟨hoperation, hall⟩⟩
    obtain ⟨original, rfl, hall⟩ := hlift
    refine ⟨original, ⟨List.Nodup.of_map _ hnodup, fun operation ↦ ⟨hall operation, fun hin ↦ ?_⟩⟩,
      (respects_map _ _ _).mp hrespects, (legal_map _ _ _ _ _).mp hlegal⟩
    obtain ⟨other, hother, heq⟩ :=
      List.mem_map.mp ((hmem (rename operation)).mpr ⟨operation, hin, rfl⟩)
    exact hinjective (hall other hother) hin heq ▸ hother
  · rintro ⟨order, ⟨hnodup, hmem⟩, hrespects, hlegal⟩
    refine ⟨order.map rename, ⟨?_, fun target ↦ ?_⟩, (respects_map _ _ _).mpr hrespects,
      (legal_map _ _ _ _ _).mpr hlegal⟩
    · refine (List.nodup_map_iff_inj_on hnodup).mpr fun first hfirst second hsecond heq ↦ ?_
      exact hinjective ((hmem first).mp hfirst) ((hmem second).mp hsecond) heq
    · simp [hmem]

/-- A set of operations is serializable when it is empty, or when some operation that nothing else
must precede has an acceptable answer and the others are serializable after it. -/
theorem serializable_iff_exists_first {operations : Set ι} {before : ι → ι → Prop}
    {step : σ → ι → σ} {answers : σ → ι → Prop} {init : σ} :
    Serializable operations before step answers init ↔
      operations = ∅ ∨ ∃ first ∈ operations, (∀ other ∈ operations, other ≠ first →
        ¬ before other first) ∧ answers init first ∧
          Serializable (operations \ {first}) before step answers (step init first) := by
  constructor
  · rintro ⟨order, ⟨hnodup, hmem⟩, hrespects, hlegal⟩
    cases order with
    | nil => exact Or.inl (Set.eq_empty_of_forall_notMem fun o ho ↦ by simpa using (hmem o).mpr ho)
    | cons first rest =>
      obtain ⟨hfirst, hrest⟩ := List.nodup_cons.mp hnodup
      obtain ⟨hearliest, hordered⟩ := List.pairwise_cons.mp hrespects
      refine Or.inr ⟨first, (hmem first).mp (by simp), fun other hother hne ↦ ?_, hlegal.1,
        rest, ⟨hrest, fun o ↦ ?_⟩, hordered, hlegal.2⟩
      · rcases List.mem_cons.mp ((hmem other).mpr hother) with heq | hin
        · exact absurd heq hne
        · exact hearliest other hin
      · rw [Set.mem_sdiff, ← hmem o, List.mem_cons, Set.mem_singleton_iff]
        constructor
        · intro hin
          exact ⟨Or.inr hin, fun heq ↦ hfirst (heq ▸ hin)⟩
        · rintro ⟨heq | hin, hne⟩
          · exact absurd heq hne
          · exact hin
  · rintro (rfl | ⟨first, hfirst, hearliest, hanswer, order, ⟨hnodup, hmem⟩, hrespects, hlegal⟩)
    · exact ⟨[], ⟨List.nodup_nil, by simp⟩, List.Pairwise.nil, trivial⟩
    · refine ⟨first :: order, ⟨List.nodup_cons.mpr ⟨fun hin ↦ ?_, hnodup⟩, fun o ↦ ?_⟩,
        List.pairwise_cons.mpr ⟨fun other hother ↦ ?_, hrespects⟩, hanswer, hlegal⟩
      · exact ((hmem first).mp hin).2 rfl
      · rw [List.mem_cons, hmem o, Set.mem_sdiff, Set.mem_singleton_iff]
        constructor
        · rintro (rfl | ⟨hin, _⟩)
          · exact hfirst
          · exact hin
        · intro hin
          by_cases heq : o = first
          · exact Or.inl heq
          · exact Or.inr ⟨hin, heq⟩
      · exact hearliest other ((hmem other).mp hother).1 fun heq ↦
          ((hmem other).mp hother).2 heq

/-! ### Initial segments -/

theorem legal_append (step : σ → ι → σ) (answers : σ → ι → Prop) (state : σ)
    (first rest : List ι) :
    Legal step answers state (first ++ rest) ↔
      Legal step answers state first ∧ Legal step answers (first.foldl step state) rest := by
  induction first generalizing state with
  | nil => simp
  | cons operation first ih => simp [ih, and_assoc]

/-- Operations of a serializable set are serializable together with some of the others, each of
which need not follow all of them. -/
theorem Serializable.upTo {operations kept : Set ι} {before : ι → ι → Prop}
    {step : σ → ι → σ} {answers : σ → ι → Prop} {init : σ}
    (h : Serializable operations before step answers init) (hkept : kept ⊆ operations) :
    ∃ included, kept ⊆ included ∧ included ⊆ operations ∧
      (∀ other ∈ included, other ∉ kept → ∃ last ∈ kept, ¬ before last other) ∧
      Serializable included before step answers init := by
  classical
  obtain ⟨order, henum, hrespects, hlegal⟩ := h
  -- the part of the order that ends at the last kept operation
  set head := order.rdropWhile fun i ↦ i ∉ kept with hhead
  have hsplit : head ++ order.rtakeWhile (fun i ↦ i ∉ kept) = order :=
    List.rdropWhile_append_rtakeWhile
  have hinitial : head <+: order := List.rdropWhile_prefix _ _
  rw [← hsplit, legal_append] at hlegal
  refine ⟨{i | i ∈ head}, fun i hin ↦ ?_, fun i hi ↦ (henum.2 i).mp (hinitial.subset hi),
    fun other hother hout ↦ ?_, head, ⟨henum.1.sublist hinitial.sublist, fun i ↦ Iff.rfl⟩,
    hrespects.sublist hinitial.sublist, hlegal.1⟩
  · have horder : i ∈ order := (henum.2 i).mpr (hkept hin)
    rw [← hsplit, List.mem_append] at horder
    rcases horder with hi | htail
    · exact hi
    · exact absurd hin (by simpa using List.mem_rtakeWhile_imp htail)
  · have hne : head ≠ [] := List.ne_nil_of_mem hother
    have hlast : head.getLast hne ∈ kept := by
      have hnot := List.rdropWhile_last_not (fun i ↦ decide (i ∉ kept)) order hne
      rwa [decide_eq_true_eq, not_not] at hnot
    have hfront : other ∈ head.dropLast :=
      List.mem_dropLast_of_mem_of_ne_getLast hother fun heq ↦ hout (heq ▸ hlast)
    have hordered : Respects before (head.dropLast ++ [head.getLast hne]) := by
      rw [List.dropLast_append_getLast]
      exact hrespects.sublist hinitial.sublist
    exact ⟨_, hlast, (List.pairwise_append.mp hordered).2.2 other hfront _ (by simp)⟩

/-! ### Rearranging within colours -/

/-- When every colour class of a list is in order, so is any pair of one colour in the list. -/
theorem pairwise_of_filter_pairwise [DecidableEq κ] {color : ι → κ} {r : ι → ι → Prop}
    {order : List ι} (h : ∀ c, (order.filter fun i ↦ color i = c).Pairwise r) :
    order.Pairwise fun first second ↦ color first = color second → r first second := by
  induction order with
  | nil => exact List.Pairwise.nil
  | cons first rest ih =>
    refine List.pairwise_cons.mpr ⟨fun second hsecond heq ↦ ?_, ih fun c ↦ ?_⟩
    · have hclass := h (color first)
      rw [List.filter_cons_of_pos (by simp)] at hclass
      exact (List.pairwise_cons.mp hclass).1 second (List.mem_filter.mpr ⟨hsecond, by simp [heq]⟩)
    · exact (h c).sublist ((List.sublist_cons_self first rest).filter _)

/-- The positions of an order can be refilled, colour by colour, with the elements of another list
that has as many elements of each colour, in the sequence in which that list holds them. -/
theorem exists_refill [DecidableEq κ] (color : ι → κ) (canonical order : List ι)
    (hcolors : (order.map color).Perm (canonical.map color)) :
    ∃ refill : List ι, refill.Perm canonical ∧ refill.map color = order.map color ∧
      ∀ c, (refill.filter fun i ↦ color i = c) = canonical.filter fun i ↦ color i = c := by
  induction order generalizing canonical with
  | nil =>
    have hnil : canonical = [] := by simpa using hcolors
    exact ⟨[], by simp [hnil], rfl, by simp [hnil]⟩
  | cons first rest ih =>
    have hmem : color first ∈ canonical.map color :=
      hcolors.subset (List.mem_map_of_mem (List.mem_cons_self ..))
    -- the earliest element of the wanted colour
    obtain ⟨source, before, after, hbefore, hsource, rfl⟩ :
        ∃ source before after, (∀ i ∈ before, color i ≠ color first) ∧
          color source = color first ∧ canonical = before ++ source :: after := by
      obtain ⟨i, hi, hcolor⟩ := List.mem_map.mp hmem
      have hsome : (canonical.find? fun i ↦ color i = color first).isSome := by
        rw [List.find?_isSome]
        exact ⟨i, hi, by simpa using hcolor⟩
      obtain ⟨source, hfind⟩ := Option.isSome_iff_exists.mp hsome
      obtain ⟨hcolor, before, after, rfl, hnot⟩ := List.find?_eq_some_iff_append.mp hfind
      exact ⟨source, before, after, fun i hi ↦ by simpa using hnot i hi, by simpa using hcolor,
        rfl⟩
    have hrest : (rest.map color).Perm ((before ++ after).map color) := by
      have hsplit : ((before ++ source :: after).map color).Perm
          (color first :: (before ++ after).map color) := by
        rw [← hsource, ← List.map_cons]
        exact (List.perm_middle).map color
      exact (List.perm_cons _).mp (hcolors.trans hsplit)
    obtain ⟨refill, hperm, hmap, hfilter⟩ := ih (before ++ after) hrest
    refine ⟨source :: refill, ?_, by simp [hmap, hsource], fun c ↦ ?_⟩
    · exact (hperm.cons source).trans List.perm_middle.symm
    · by_cases hc : color source = c
      · have hempty : (before.filter fun i ↦ color i = c) = [] := by
          refine List.filter_eq_nil_iff.mpr fun i hi ↦ ?_
          simpa [← hc, hsource] using hbefore i hi
        simp [hfilter c, List.filter_append, hc, hempty]
      · simp [hfilter c, List.filter_append, hc]

end Propsim.Foundation
