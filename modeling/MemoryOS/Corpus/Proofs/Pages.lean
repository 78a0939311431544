/-
Where the pages of a PDF stand in its text (`page_markers`).

The markers are counted on the raw pages. The text they go with is composed
and rewritten, and what is left of a page stands where the characters before
it that survive end (`normalizeText_page`). The two agree as long as the
rewrites drop before each page what composition adds to the earlier ones
(`Fits`), which is exact (`located_iff`).
-/
import MemoryOS.Corpus.Ports
import MemoryOS.Domain.Proofs.Survivors

namespace MemoryOS.PdfParser

-- ====== statement vocabulary

section
variable (nfc : Text → Text) (pages : List Text) (k : Nat)

/-- The composed text before a page, its page break included. -/
def textBefore : Text :=
  ((pages.take k).map fun page => nfc page ++ [pageBreak]).flatten

/-- The composed text of a page. -/
def textOf : Text := nfc (pages.getD k [])

/-- The composed text after a page. -/
def textAfter : Text :=
  ((pages.drop (k + 1)).map fun page => pageBreak :: nfc page).flatten

/-- What survives of a page. -/
def leaves : Text :=
  keptIn (textBefore nfc pages k) (textOf nfc pages k) (textAfter nfc pages k)

/-- How much survives of the text before a page. -/
def standsAt : Nat :=
  (keptIn [] (textBefore nfc pages k)
    (textOf nfc pages k ++ textAfter nfc pages k)).length

/-- How much goes of the text before a page. -/
def lostBefore : Nat :=
  lostIn [] (textBefore nfc pages k) (textOf nfc pages k ++ textAfter nfc pages k)

/-- Where a page leaves something, as much goes before it as composition adds
to the earlier pages, and unless it is the last no more survives of it than
its raw text and the page break are long. -/
def Fits : Prop :=
  leaves nfc pages k ≠ [] →
    lostBefore nfc pages k + (pages.take k).flatten.length
        = ((pages.take k).map nfc).flatten.length
      ∧ (k + 1 < pages.length →
        (leaves nfc pages k).length ≤ (pages.getD k []).length + 1)

end

/-- The last marker at or before an offset. -/
def attributed (markers : List StructureMarker) (start : Nat) :
    Option StructureMarker :=
  (markers.filter fun m => decide (m.charOffset ≤ start)).getLast?

/-- The markers of a document are where its pages are. -/
structure Located (nfc : Text → Text) (pages : List Text) (doc : ParsedDocument) :
    Prop where
  /-- What is left of a page stands together in the text. -/
  text : ∀ k, k < pages.length →
    (doc.text.drop (standsAt nfc pages k)).take (leaves nfc pages k).length
      = leaves nfc pages k
  /-- Each marker is where the first of it stands. -/
  first : ∀ k marker, doc.structure_[k]? = some marker →
    leaves nfc pages k ≠ [] → marker.charOffset = standsAt nfc pages k
  increasing : doc.structure_.Pairwise fun m n => m.charOffset < n.charOffset
  /-- The page attributed to a place is the one the character there is of. -/
  page : ∀ k, k < pages.length → ∀ i, standsAt nfc pages k ≤ i →
    i < standsAt nfc pages k + (leaves nfc pages k).length →
    ∃ marker, doc.structure_[k]? = some marker
      ∧ attributed doc.structure_ i = some marker

variable {nfc : Text → Text} {pages : List Text} {k : Nat}

-- ========= markers

/-- The raw text before a page, with the page breaks. -/
def rawBefore (pages : List Text) (k : Nat) : Nat :=
  (pages.take k).flatten.length + k

variable {marker : StructureMarker} {markers : List StructureMarker}
  {i number offset : Nat}

theorem markersFrom_getElem? :
    (markersFrom number offset pages)[k]?.map (·.charOffset)
      = if k < pages.length then some (offset + rawBefore pages k) else none := by
  induction pages generalizing number offset k with
  | nil => rfl
  | cons page pages ih =>
    cases k with
    | zero => simp [markersFrom, rawBefore]
    | succ k =>
      rw [markersFrom, List.getElem?_cons_succ, ih]
      simp only [rawBefore, List.length_cons, List.take_succ_cons,
        List.flatten_cons, List.length_append, Nat.add_lt_add_iff_right]
      split
      case isTrue =>
        congr 1
        omega
      case isFalse => rfl

theorem mem_markersFrom
    (h : marker ∈ markersFrom number offset pages) : offset ≤ marker.charOffset := by
  induction pages generalizing number offset with
  | nil => cases h
  | cons page pages ih =>
    rcases List.mem_cons.1 h with rfl | h
    · exact Nat.le_refl _
    · have hrest := ih h
      omega

theorem markersFrom_increasing :
    (markersFrom number offset pages).Pairwise
      fun m n => m.charOffset < n.charOffset := by
  induction pages generalizing number offset with
  | nil => exact List.Pairwise.nil
  | cons page pages ih =>
    refine List.pairwise_cons.2 ⟨fun marker hmarker => ?_, ih⟩
    have hlater := mem_markersFrom hmarker
    show offset < marker.charOffset
    omega

theorem attributed_cons :
    attributed (marker :: markers) i = (attributed markers i).or
      (if marker.charOffset ≤ i then some marker else none) := by
  unfold attributed
  by_cases h : marker.charOffset ≤ i
  · rw [List.filter_cons_of_pos (by simpa using h), if_pos h, List.getLast?_cons]
    cases (markers.filter fun m => decide (m.charOffset ≤ i)).getLast? <;> rfl
  · rw [List.filter_cons_of_neg (by simpa using h), if_neg h, Option.or_none]

theorem mem_of_attributed (h : attributed markers i = some marker) :
    marker ∈ markers :=
  (List.mem_filter.1 (List.mem_of_getLast? h)).1

theorem attributed_eq_none :
    attributed markers i = none ↔ ∀ m ∈ markers, i < m.charOffset := by
  simp [attributed]

theorem attributed_iff
    (hinc : markers.Pairwise fun m n => m.charOffset < n.charOffset)
    (hk : markers[k]? = some marker) :
    attributed markers i = some marker
      ↔ marker.charOffset ≤ i
        ∧ ∀ next, markers[k + 1]? = some next → i < next.charOffset := by
  induction markers generalizing k with
  | nil => cases hk
  | cons m markers ih =>
    obtain ⟨hm, hrest⟩ := List.pairwise_cons.1 hinc
    rw [attributed_cons, List.getElem?_cons_succ]
    cases k with
    | zero =>
      obtain rfl : m = marker := Option.some.inj hk
      cases hlater : attributed markers i with
      | none =>
        have hafter := attributed_eq_none.1 hlater
        rw [Option.none_or, Option.ite_none_right_eq_some]
        refine ⟨fun h => ⟨h.1, fun next hnext => ?_⟩, fun h => ⟨h.1, rfl⟩⟩
        exact hafter next (List.mem_of_getElem? hnext)
      | some later =>
        have hmem := mem_of_attributed hlater
        rw [Option.some_or]
        constructor
        · intro heq
          rw [Option.some.inj heq] at hmem
          exact absurd (hm m hmem) (Nat.lt_irrefl _)
        · rintro ⟨-, hnext⟩
          have hbefore : ∀ m ∈ markers, i < m.charOffset := by
            cases markers with
            | nil => cases hmem
            | cons next markers =>
              have hfirst := hnext next rfl
              intro n hn
              rcases List.mem_cons.1 hn with rfl | hn
              · exact hfirst
              · have := (List.pairwise_cons.1 hrest).1 n hn
                omega
          rw [attributed_eq_none.2 hbefore] at hlater
          cases hlater
    | succ k =>
      rw [← ih hrest hk]
      have hmarker := hm marker (List.mem_of_getElem? hk)
      cases hlater : attributed markers i with
      | none =>
        rw [Option.none_or, Option.ite_none_right_eq_some]
        refine iff_of_false (fun h => ?_) (by simp)
        rw [Option.some.inj h.2] at hmarker
        exact absurd hmarker (Nat.lt_irrefl _)
      | some later => rw [Option.some_or]

-- =========== pages

theorem nfc_joinPages (laws : LawfulNfc nfc) (hk : k < pages.length) :
    nfc (joinPages pages)
      = textBefore nfc pages k ++ (textOf nfc pages k ++ textAfter nfc pages k) := by
  induction pages generalizing k with
  | nil => cases hk
  | cons page pages ih =>
    have hcomposed : pages ≠ [] → nfc (joinPages (page :: pages))
        = nfc page ++ pageBreak :: nfc (joinPages pages) := by
      intro hne
      obtain ⟨next, more, rfl⟩ := List.exists_cons_of_ne_nil hne
      rw [joinPages, List.intercalate_cons_cons, List.append_assoc,
        List.singleton_append, laws.boundary _ pageBreak _ (.inl (by decide)),
        laws.fixed pageBreak (.inl (by decide)), List.append_assoc]
      rfl
    cases k with
    | zero =>
      show nfc (joinPages (page :: pages)) = nfc page ++ _
      cases pages with
      | nil => simp [joinPages, textAfter]
      | cons next more =>
        rw [hcomposed (List.cons_ne_nil _ _), ih (Nat.succ_pos _)]
        rfl
    | succ k =>
      have hrest : k < pages.length := Nat.lt_of_succ_lt_succ hk
      rw [hcomposed (List.ne_nil_of_length_pos (Nat.zero_lt_of_lt hrest)),
        ih hrest]
      simp [textBefore, textOf, textAfter]

theorem normalizeText_page (laws : LawfulNfc nfc) (hk : k < pages.length) :
    normalizeText nfc (joinPages pages)
      = keptIn [] (textBefore nfc pages k)
          (textOf nfc pages k ++ textAfter nfc pages k)
        ++ (leaves nfc pages k
          ++ keptIn (textBefore nfc pages k ++ textOf nfc pages k)
            (textAfter nfc pages k) []) := by
  rw [normalizeText_kept, nfc_joinPages laws hk, keptIn_append, keptIn_append,
    List.append_nil, List.append_nil, List.nil_append]
  rfl

theorem length_textBefore (hk : k ≤ pages.length) :
    (textBefore nfc pages k).length
      = ((pages.take k).map nfc).flatten.length + k := by
  induction pages generalizing k with
  | nil =>
    obtain rfl : k = 0 := by simpa using hk
    rfl
  | cons page pages ih =>
    cases k with
    | zero => rfl
    | succ k =>
      have hrest := ih (Nat.le_of_succ_le_succ hk)
      simp only [textBefore, List.take_succ_cons, List.map_cons,
        List.flatten_cons, List.length_append, List.length_singleton]
        at hrest ⊢
      omega

-- ====== the markers

theorem pageMarkers_getElem? (hk : k < pages.length) :
    ∃ marker, (pageMarkers pages)[k]? = some marker
      ∧ marker.charOffset = rawBefore pages k := by
  have hoffset : (pageMarkers pages)[k]?.map (·.charOffset)
      = if k < pages.length then some (0 + rawBefore pages k) else none :=
    markersFrom_getElem?
  rw [if_pos hk, Nat.zero_add] at hoffset
  obtain ⟨marker, hmarker, heq⟩ := Option.map_eq_some_iff.1 hoffset
  exact ⟨marker, hmarker, heq⟩

theorem pageMarkers_some (h : (pageMarkers pages)[k]? = some marker) :
    k < pages.length ∧ marker.charOffset = rawBefore pages k := by
  have hk : k < pages.length := by
    by_contra hk
    have hnone : (pageMarkers pages)[k]?.map (·.charOffset) = none :=
      markersFrom_getElem?.trans (if_neg hk)
    rw [h] at hnone
    cases hnone
  obtain ⟨marker', hmarker', hoffset⟩ := pageMarkers_getElem? hk
  obtain rfl := Option.some.inj (h.symm.trans hmarker')
  exact ⟨hk, hoffset⟩

theorem rawBefore_succ (hk : k < pages.length) :
    rawBefore pages (k + 1) = rawBefore pages k + (pages.getD k []).length + 1 := by
  have hget : pages.getD k [] = pages[k] := by
    simp [List.getD_eq_getElem?_getD, hk]
  unfold rawBefore
  rw [List.take_succ_eq_append_getElem hk, List.flatten_append,
    List.length_append, hget, List.flatten_singleton]
  omega

theorem rawBefore_eq_iff (hk : k < pages.length) :
    rawBefore pages k = standsAt nfc pages k
      ↔ lostBefore nfc pages k + (pages.take k).flatten.length
        = ((pages.take k).map nfc).flatten.length := by
  have hlength := length_keptIn [] (textBefore nfc pages k)
    (textOf nfc pages k ++ textAfter nfc pages k)
  rw [length_textBefore (Nat.le_of_lt hk)] at hlength
  unfold rawBefore standsAt lostBefore
  omega

section
variable {written : List (String × String) → String}
  {open_ : Bytes → Except Text PdfReader} {data : Bytes} {externalKey : Text}
  {reader : PdfReader} {doc : ParsedDocument}

theorem parse_ok (hread : open_ data = .ok reader)
    (h : parse nfc written open_ data externalKey = .ok doc) :
    doc.text = normalizeText nfc (joinPages (reader.pages.map (·.getD [])))
      ∧ doc.structure_ = pageMarkers (reader.pages.map (·.getD [])) := by
  unfold parse at h
  rw [hread] at h
  simp only at h
  split at h
  case isTrue => cases h
  case isFalse =>
    obtain rfl := Except.ok.inj h
    exact ⟨rfl, rfl⟩

/-- The markers of a document are where its pages are exactly when the pages
fit. -/
theorem located_iff (laws : LawfulNfc nfc) (hread : open_ data = .ok reader)
    (h : parse nfc written open_ data externalKey = .ok doc) :
    Located nfc (reader.pages.map (·.getD [])) doc
      ↔ ∀ k, k < reader.pages.length →
        Fits nfc (reader.pages.map (·.getD [])) k := by
  obtain ⟨htext, hmarkers⟩ := parse_ok hread h
  have hlength : (reader.pages.map (·.getD [])).length = reader.pages.length :=
    List.length_map _
  generalize reader.pages.map (·.getD []) = pages at htext hmarkers hlength ⊢
  rw [← hlength]
  have hincreasing : (pageMarkers pages).Pairwise
      fun m n => m.charOffset < n.charOffset := markersFrom_increasing
  constructor
  · intro hlocated k hk hleaves
    obtain ⟨marker, hmarker, hoffset⟩ := pageMarkers_getElem? hk
    have hfirst := hlocated.first k marker (by rw [hmarkers]; exact hmarker) hleaves
    rw [hoffset] at hfirst
    refine ⟨(rawBefore_eq_iff hk).1 hfirst, fun hnext => ?_⟩
    -- the last character that is left of the page is before the next marker
    have hpos := List.length_pos_of_ne_nil hleaves
    obtain ⟨marker', hmarker', hattributed⟩ := hlocated.page k hk
      (standsAt nfc pages k + (leaves nfc pages k).length - 1) (by omega) (by omega)
    rw [hmarkers] at hmarker' hattributed
    obtain ⟨next, hnext, hoffset'⟩ := pageMarkers_getElem? hnext
    have hbefore := ((attributed_iff hincreasing hmarker').1 hattributed).2 next hnext
    rw [hoffset', rawBefore_succ hk] at hbefore
    omega
  · intro hfits
    have hfirst : ∀ k, k < pages.length → leaves nfc pages k ≠ [] →
        rawBefore pages k = standsAt nfc pages k :=
      fun k hk hleaves => (rawBefore_eq_iff hk).2 (hfits k hk hleaves).1
    constructor
    case text =>
      intro k hk
      rw [htext, normalizeText_page laws hk, standsAt, List.drop_left,
        List.take_left]
    case first =>
      intro k marker hmarker hleaves
      rw [hmarkers] at hmarker
      obtain ⟨hk, hoffset⟩ := pageMarkers_some hmarker
      rw [hoffset, hfirst k hk hleaves]
    case increasing =>
      rw [hmarkers]
      exact hincreasing
    case page =>
      intro k hk i hfrom hto
      have hleaves : leaves nfc pages k ≠ [] := by
        intro hnil
        rw [hnil, List.length_nil] at hto
        omega
      obtain ⟨marker, hmarker, hoffset⟩ := pageMarkers_getElem? hk
      rw [hmarkers]
      refine ⟨marker, hmarker, (attributed_iff hincreasing hmarker).2 ⟨?_, ?_⟩⟩
      · rw [hoffset, hfirst k hk hleaves]
        exact hfrom
      · intro next hnext
        obtain ⟨hk', hoffset'⟩ := pageMarkers_some hnext
        have hlong := (hfits k hk hleaves).2 hk'
        rw [hoffset', rawBefore_succ hk, hfirst k hk hleaves]
        omega

end

-- ------ two small reports

/-- Two pages of plain text. -/
def plainReport : PdfReader where
  pages := [some "The first page of a short report of two pages only.".toList,
    some "The second page.".toList]
  info := []

/-- Two pages, and a space at the end of a line of the first. -/
def spacedReport : PdfReader where
  pages := [some "A title with a space after it \nand a body of some length.".toList,
    some "The second page.".toList]
  info := []

theorem parse_long {written : List (String × String) → String} {data : Bytes}
    {externalKey : Text} {reader : PdfReader}
    (h : ¬ (strip ((normalizeText nfc
      (joinPages (reader.pages.map (·.getD [])))).filter (· != pageBreak))).length
        < minExtractedChars) :
    ∃ doc, parse nfc written (fun _ => .ok reader) data externalKey
      = .ok doc := by
  unfold parse
  simp only [if_neg h, Except.ok.injEq, exists_eq']

/-- The pages of the plain report stand where their markers are. -/
theorem located_iff_plainReport :
    ∃ doc, parse id (fun _ => "") (fun _ => .ok plainReport) [] [] = .ok doc
      ∧ Located id (plainReport.pages.map (·.getD [])) doc := by
  obtain ⟨doc, h⟩ : ∃ doc,
      parse id (fun _ => "") (fun _ => .ok plainReport) [] [] = .ok doc :=
    parse_long (by decide +kernel)
  refine ⟨doc, h, (located_iff lawfulNfc_id rfl h).2 ?_⟩
  unfold Fits
  decide +kernel

/-- Past the space the marker of the second page is one too far. -/
theorem not_located :
    ¬ ∀ nfc, LawfulNfc nfc → ∀ written open_ data externalKey reader doc,
      open_ data = .ok reader →
      parse nfc written open_ data externalKey = .ok doc →
      Located nfc (reader.pages.map (·.getD [])) doc := by
  intro hall
  obtain ⟨doc, h⟩ : ∃ doc,
      parse id (fun _ => "") (fun _ => .ok spacedReport) [] [] = .ok doc :=
    parse_long (by decide +kernel)
  have hlocated := hall id lawfulNfc_id _ _ _ _ spacedReport doc rfl h
  obtain ⟨marker, hmarker, hoffset⟩ : ∃ marker,
      (pageMarkers (spacedReport.pages.map (·.getD [])))[1]? = some marker
        ∧ marker.charOffset
          = rawBefore (spacedReport.pages.map (·.getD [])) 1 :=
    pageMarkers_getElem? (by decide)
  rw [← (parse_ok rfl h).2] at hmarker
  have hfirst := hlocated.first 1 marker hmarker (by decide +kernel)
  rw [hoffset] at hfirst
  exact absurd hfirst (by decide +kernel)

end MemoryOS.PdfParser
