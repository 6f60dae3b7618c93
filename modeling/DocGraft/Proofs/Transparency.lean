import DocGraft.Proofs.PlaceholderRemoval

/-!
# Scanning without replacements

A scanner that replaces nothing gives its source back, provided that no placeholder was put inside a
comment or a literal. The proviso is needed: such a placeholder is left behind in the result.

The main results are `Scanner.finish_eq_source`, `Scanner.word_infix_finish` and
`Scanner.finish_eq_source_iff`.
-/

namespace DocGraft.Source

open List Text Scanner

/-- A placeholder stands at the beginning of the text, behind a line end of code, or inline. -/
def Unbroken (text : Text) (place : Nat × Placeholder) : Prop :=
  place.2 = .line → place.1 ≠ 0 → place.1 - 1 ∈ codeOffsets text

theorem apart_of_unbroken {text : Text} {place : Nat × Placeholder}
    (h : place ∈ placeholders text) (hunbroken : Unbroken text place) :
    Apart (grains text) place := by
  obtain ⟨p, placeholder⟩ := place
  cases placeholder with
  | inline =>
    obtain ⟨as, g, bs, hgs, hlen, -, -⟩ := exists_inline h
    refine ⟨as, g :: bs, hgs, hlen, fun t => ?_, by simp⟩
    have hstanding := standing_grains text
    rw [hgs] at hstanding
    obtain ⟨has, hg, -⟩ := standing_append.mp hstanding
    exact has.before_newline (by simp [hg.ne_nil]) _
  | line =>
    by_cases hp : p = 0
    · exact ⟨[], grains text, rfl, hp.symm, fun _ => trivial, fun _ => atLineStart_nil⟩
    · obtain ⟨as, c, bs, hgs, hlen⟩ := mem_codeOffsets.mp (hunbroken rfl hp)
      obtain ⟨as', c', bs', u, v, hgs', -, hbs', -, hp'⟩ := exists_lineEnd h hp
      obtain rfl : c = '\n' := by
        have htext : grainText as ++ c :: grainText bs = (grainText as' ++ c' :: u) ++
            '\n' :: v := by
          have h₁ := eq_of_grains_eq hgs
          have h₂ := eq_of_grains_eq hgs'
          rw [grainText_cons, hbs'] at h₂
          grind [grainText_cons]
        refine (List.cons.inj (append_inj_right htext ?_)).1
        grind
      refine ⟨as ++ [(.code, ['\n'])], bs, by simp [hgs], ?_, fun t => ?_, fun _ => ?_⟩
      · grind [grainText_append, grainText_cons, grainText_nil]
      · have hstanding := standing_grains text
        rw [hgs] at hstanding
        refine standing_append.mpr ⟨?_, stands_newline _, trivial⟩
        exact (standing_append.mp hstanding).1.congr (by simp)
      · rw [grainText_append]
        exact atLineStart_concat.mpr rfl

/-- Two cuts between grains at one offset are the same. -/
theorem eq_of_length_eq {as bs cs ds : List Grain} {t : Text} (h : as ++ bs = cs ++ ds)
    (hstanding : Standing (as ++ bs) t) (hlen : (grainText as).length = (grainText cs).length) :
    as = cs ∧ bs = ds := by
  obtain ⟨us, rfl, rfl⟩ := exists_between h hstanding hlen.le
  cases us with
  | nil => exact ⟨(append_nil _).symm, rfl⟩
  | cons g us =>
    have hpos := length_pos_of_ne_nil (standing_append.mp hstanding).2.1.ne_nil
    grind [grainText_append, grainText_cons]

/-- The grains between the last placeholder that breaks nothing and a block comment that is broken
show on the line of the comment that it documents nothing. -/
theorem exists_solid {text : Text} {gs ms cs : List Grain} {w : Text}
    (hgs : grains text = gs ++ (ms ++ (.blockComment, w) :: cs))
    (hlast : gs = [] ∨ ∃ placeholder, ((grainText gs).length, placeholder) ∈ placeholders text ∧
      Unbroken text ((grainText gs).length, placeholder))
    {as bs : List Grain} {c : Char} (hbefore : gs ++ ms = as ++ (.code, [c]) :: bs)
    (hc : c = ';' ∨ c = '{' ∨ c = '}') (hbs : '\n' ∉ grainText bs) :
    ∃ u d v, grainText ms = u ++ d :: v ∧ d ≠ ' ' ∧ d ≠ '\n' ∧ '\n' ∉ v := by
  have hstanding := standing_grains text
  have hc' : c ≠ ' ' ∧ c ≠ '\n' := by rcases hc with rfl | rfl | rfl <;> decide
  have hstanding' : Standing (gs ++ ms) (grainText ((.blockComment, w) :: cs) ++ []) := by
    rw [hgs, ← append_assoc] at hstanding
    exact (standing_append.mp hstanding).1
  rcases Nat.lt_or_ge (grainText as).length (grainText gs).length with hlt | hge
  · -- The separator is behind the last placeholder, so this is inline.
    have hcut : (as ++ [(.code, [c])]) ++ bs = gs ++ ms := by simp [hbefore]
    obtain ⟨us, hus, hms⟩ := exists_between hcut (by rwa [hcut]) (by simpa using hlt)
    rcases hlast with rfl | ⟨placeholder, hmem, hunbroken⟩
    · simp at hlt
    have hapart := apart_of_unbroken hmem hunbroken
    cases placeholder with
    | line =>
      obtain ⟨as', bs', heq, hlen, -, hline⟩ := hapart
      obtain ⟨rfl, -⟩ := eq_of_length_eq (heq ▸ hgs) (heq ▸ hstanding) hlen
      have hstart := hline rfl
      rw [hus, grainText_append, grainText_append, grainText_cons, grainText_nil,
        append_nil] at hstart
      rcases eq_nil_or_concat (grainText us) with hnil | ⟨x, d, hx⟩
      · rw [hnil, append_nil] at hstart
        exact absurd (atLineStart_concat.mp hstart) hc'.2
      · rw [hx, concat_eq_append, ← append_assoc] at hstart
        obtain rfl := atLineStart_concat.mp hstart
        exact absurd (by simp [hms, hx]) hbs
    | inline =>
      obtain ⟨as', g, bs', heq, hlen, hblock, d, w', hg, hd⟩ := exists_inline hmem
      obtain ⟨rfl, hnext⟩ := eq_of_length_eq (heq ▸ hgs) (heq ▸ hstanding) hlen
      cases ms with
      | nil =>
        obtain ⟨rfl, -⟩ := List.cons.inj hnext
        exact absurd rfl hblock
      | cons m ms =>
        obtain ⟨rfl, -⟩ := List.cons.inj hnext
        refine ⟨[], d, w' ++ grainText ms, by simp [hg], ?_, ?_, fun hmem => hbs ?_⟩
        · rintro rfl
          exact absurd hd (by decide)
        · rintro rfl
          exact absurd hd (by decide)
        · rw [hms]
          simp only [grainText_append, grainText_cons, hg, mem_append, mem_cons] at hmem ⊢
          tauto
  · obtain ⟨us, rfl, rfl⟩ := exists_between hbefore hstanding' hge
    exact ⟨grainText us, c, grainText bs, by simp, hc'.1, hc'.2, hbs⟩

/-- The placeholders that break nothing part the grains up to the last of them. -/
theorem exists_parted_of_unbroken {text : Text} {places later : List (Nat × Placeholder)}
    (hplaces : placeholders text = places ++ later)
    (hunbroken : ∀ place ∈ places, Unbroken text place) :
    ∃ gs hs, grains text = gs ++ hs ∧ Parted 0 places gs := by
  have hsorted := sorted_placeholders text
  rw [hplaces, pairwise_append] at hsorted
  have hstanding : Standing ([] ++ grains text) [] := standing_grains text
  refine exists_parted hstanding hsorted.1 (by simp) fun place hplace =>
    apart_of_unbroken ?_ (hunbroken place hplace)
  grind

/-- What stands before the first placeholder that breaks into a comment or a literal. -/
theorem exists_first_broken {text : Text}
    (h : ∃ place ∈ placeholders text, ¬ Unbroken text place) :
    ∃ places later gs ms region w₁ w₂ cs,
      placeholders text =
        places ++ (0 + (grainText gs).length + (grainText ms ++ w₁).length, .line) :: later ∧
      grains text = gs ++ (ms ++ (region, w₁ ++ w₂) :: cs) ∧ Parted 0 places gs ∧
      region ≠ .code ∧ w₁.getLast? = some '\n' ∧
      (region = .blockComment →
        ∃ u d v, grainText ms = u ++ d :: v ∧ d ≠ ' ' ∧ d ≠ '\n' ∧ '\n' ∉ v) := by
  classical
  obtain ⟨place, hfind⟩ : ∃ place, (placeholders text).find?
      (fun place => ¬ Unbroken text place) = some place := by
    rw [← Option.isSome_iff_exists, find?_isSome]
    simpa using h
  obtain ⟨hplace, places, later, hsplit, hbefore⟩ := find?_eq_some_iff_append.mp hfind
  obtain ⟨p, placeholder⟩ := place
  simp only [Unbroken, decide_eq_true_eq, Classical.not_imp] at hplace
  obtain ⟨rfl, hp, hcode⟩ := hplace
  have hunbroken : ∀ place ∈ places, Unbroken text place :=
    fun place hplace => by simpa using hbefore place hplace
  obtain ⟨gs, hs, hgs, hparted⟩ := exists_parted_of_unbroken hsplit hunbroken
  have hlast : gs = [] ∨ ∃ placeholder, ((grainText gs).length, placeholder) ∈ places := by
    rcases hparted.getLast? with ⟨-, hnil⟩ | ⟨placeholder, hlast⟩
    · exact .inl hnil
    · grind
  have hlt : (grainText gs).length < p := by
    rcases hlast with rfl | ⟨placeholder, hlast⟩
    · exact Nat.pos_of_ne_zero hp
    · have hsorted := sorted_placeholders text
      grind
  obtain ⟨as, c, bs, region, w₁, w₂, cs, hgs', hc, hbs, hregion, hend, rfl⟩ :=
    exists_broken (hsplit ▸ mem_append_right _ mem_cons_self) hp hcode
  have hcuts : (as ++ (.code, [c]) :: bs) ++ (region, w₁ ++ w₂) :: cs = gs ++ hs := by
    rw [← hgs, hgs']
    simp
  have hlen : (grainText (as ++ (.code, [c]) :: bs)).length =
      (grainText as).length + 1 + (grainText bs).length := by
    grind [grainText_append, grainText_cons]
  -- The last placeholder before this one stands before the comment or literal that is broken.
  have hle : (grainText gs).length ≤ (grainText (as ++ (.code, [c]) :: bs)).length := by
    by_contra hnot
    obtain ⟨us, rfl, hus⟩ := exists_between hcuts (hcuts ▸ hgs ▸ standing_grains text) (by omega)
    cases us with
    | nil => simp at hnot
    | cons g us =>
      obtain ⟨rfl, -⟩ := List.cons.inj hus
      rw [grainText_append, grainText_cons, length_append, hlen, length_append,
        length_append] at hlt
      omega
  obtain ⟨ms, hms, rfl⟩ := exists_between hcuts.symm (hgs ▸ standing_grains text) hle
  refine ⟨places, later, gs, ms, region, w₁, w₂, cs, ?_, hgs, hparted, hregion, hend, ?_⟩
  · rw [← hlen, hms, grainText_append, length_append, Nat.add_assoc, ← length_append,
      ← Nat.zero_add (List.length _)] at hsplit
    rw [hsplit, Nat.add_assoc]
  · rintro rfl
    refine exists_solid hgs (hlast.imp_right ?_) hms.symm hc hbs
    rintro ⟨placeholder, hmem⟩
    grind

end DocGraft.Source

namespace DocGraft.Scanner

open List Text Source

theorem finish_eq_cleaned (source className : Text) (kind : TypeKind) (n : Nat) :
    (advance^[n] (start source className kind)).finish.1 =
      cleaned [] (insertFrom 0 (placeholders source) source) :=
  finish_advance source className kind n

/-- Where no placeholder breaks into a comment or a literal, a scanner that replaces nothing gives
its source back. -/
theorem finish_eq_source {source : Text} (hplain : ∀ g ∈ grains source, Plain g)
    (hunbroken : ∀ place ∈ placeholders source, Unbroken source place) (className : Text)
    (kind : TypeKind) (n : Nat) :
    (advance^[n] (start source className kind)).finish.1 = source := by
  obtain ⟨gs, hs, hgs, hparted⟩ := exists_parted_of_unbroken (append_nil _).symm hunbroken
  rw [hgs] at hplain
  obtain ⟨pre, -, hcleaned⟩ := hparted.cleaned
    (fun g hg => hplain g (mem_append_left _ hg)) atLineStart_nil
  have hrest : Standing hs [] := (standing_append.mp (hgs ▸ standing_grains source)).2
  have h := hcleaned [] (grainText hs)
  rw [insertFrom, cleaned_plain (fun g hg => hplain g (mem_append_right _ hg)) hrest,
    append_nil, ← eq_of_grains_eq hgs] at h
  rw [finish_eq_cleaned, h]

/-- A placeholder that breaks into a comment or a literal is left in the result. -/
theorem word_infix_finish {source : Text} (hplain : ∀ g ∈ grains source, Plain g)
    (hbroken : ∃ place ∈ placeholders source, ¬ Unbroken source place) (className : Text)
    (kind : TypeKind) (n : Nat) :
    Placeholder.word <:+: (advance^[n] (start source className kind)).finish.1 := by
  obtain ⟨places, later, gs, ms, region, w₁, w₂, cs, hplaces, hgs, hparted, hregion,
      hend, hsolid⟩ :=
    exists_first_broken hbroken
  have hmem : ∀ g ∈ gs ++ ms, Plain g := fun g hg => hplain g (by
    grind)
  obtain ⟨pre, -, hcleaned⟩ := hparted.cleaned
    (fun g hg => hmem g (mem_append_left _ hg)) atLineStart_nil
  obtain ⟨hms, hstands, -⟩ := standing_append.mp
    (standing_append.mp (hgs ▸ standing_grains source)).2
  have htail : grainText (ms ++ (region, w₁ ++ w₂) :: cs) =
      (grainText ms ++ w₁) ++ (w₂ ++ grainText cs) := by
    simp
  rw [finish_eq_cleaned, hplaces, eq_of_grains_eq hgs, hcleaned, htail, insertFrom_cons,
    append_assoc]
  refine List.IsInfix.trans ?_ (suffix_append _ _).isInfix
  refine infix_cleaned (fun g hg => hmem g (mem_append_right _ hg)) hstands hregion hend
    (fun t => hms.congr ?_) (fun hblock => ?_) _
  · obtain ⟨c, w₁, rfl⟩ := exists_cons_of_ne_nil (l := w₁) (by rintro rfl; simp at hend)
    simp
  · obtain ⟨u, d, v, hms, hspace, hnewline, hv⟩ := hsolid hblock
    intro hspaces
    have hlead : d ∈ (pre ++ grainText ms).reverse.takeWhile (· ≠ '\n') := by
      rw [hms, reverse_append, reverse_append, reverse_cons, append_assoc,
        append_assoc, takeWhile_append_of_pos (by
          intro c hc
          grind),
        singleton_append, takeWhile_cons_of_pos (by simpa using hnewline)]
      exact mem_append_right _ mem_cons_self
    grind

/-- A scanner that replaces nothing gives a source without the placeholder word back exactly if no
placeholder was put behind a line end inside a comment or a literal. -/
theorem finish_eq_source_iff (source className : Text) (kind : TypeKind) (n : Nat)
    (hword : contains "javadoc-merge".toList source = false) :
    (advance^[n] (start source className kind)).finish.1 = source ↔
      ∀ p, (p, .line) ∈ placeholders source → p ≠ 0 → p - 1 ∈ codeOffsets source := by
  have hnot : ¬ Placeholder.word <:+: source := by
    rw [← contains_iff]
    exact Bool.eq_false_iff.mp hword
  have hplain : ∀ g ∈ grains source, Plain g := by
    rintro g hg - hin
    obtain ⟨as, bs, hgs⟩ := List.append_of_mem hg
    refine hnot (hin.trans ⟨grainText as, grainText bs, ?_⟩)
    simp [eq_of_grains_eq hgs]
  constructor
  · intro hfinish p hmem hp
    by_contra hcode
    refine hnot ?_
    rw [← hfinish]
    exact word_infix_finish hplain ⟨_, hmem, fun h => hcode (h rfl hp)⟩ className kind n
  · intro h
    refine finish_eq_source hplain ?_ className kind n
    rintro ⟨p, placeholder⟩ hmem hline hp
    obtain rfl : placeholder = .line := hline
    exact h p hmem hp

/-- Two types without documentation, the inner one on a line of its own. -/
theorem finish_eq_source_iff_nested_type :
    contains "javadoc-merge".toList "class A \x7b\n int x;\n class B \x7b\x7d\n\x7d\n".toList =
      false ∧
      (advance^[1] (start "class A \x7b\n int x;\n class B \x7b\x7d\n\x7d\n".toList "A".toList
        .classType)).finish.1 = "class A \x7b\n int x;\n class B \x7b\x7d\n\x7d\n".toList := by
  refine ⟨by decide, (finish_eq_source_iff _ _ _ _ (by decide)).mpr fun p hp hpos => ?_⟩
  have hplaces : placeholders "class A \x7b\n int x;\n class B \x7b\x7d\n\x7d\n".toList =
      [(0, .line), (18, .line)] := by decide
  rw [hplaces] at hp
  obtain rfl : p = 18 := by simpa [hpos] using hp
  decide

/-- The comment before the inner type has a line end, and the placeholder is put behind that. -/
theorem finish_ne_source_broken_comment :
    contains "javadoc-merge".toList
      "class A \x7b\n int x; /*\n */ class B \x7b\x7d\n\x7d\n".toList = false ∧
      (start "class A \x7b\n int x; /*\n */ class B \x7b\x7d\n\x7d\n".toList "A".toList
        .classType).finish.1 ≠
        "class A \x7b\n int x; /*\n */ class B \x7b\x7d\n\x7d\n".toList := by
  decide

end DocGraft.Scanner
