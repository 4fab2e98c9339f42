import Mathlib
import AsmLinker.Proofs.Program.Merge

/-!
# The bytes of a section

In a well-formed program the data of a section fills it in order of declaration, so that sorting by
position changes nothing, no byte is cut off or added between two declarations, and the bytes of the
section are those of its data, one declaration behind the other. Each declaration is found at its
position.
-/

namespace AsmLinker

namespace Declaration

theorem Tiles.le_offset {start stop : Nat} {ds : List Declaration} (h : Tiles start ds stop) :
    ∀ d ∈ ds, start ≤ d.offset := by
  induction ds generalizing start with
  | nil => simp
  | cons d rest ih =>
    obtain ⟨hoffset, hrest⟩ := h
    intro e he
    rcases List.mem_cons.mp he with rfl | he
    · exact hoffset.ge
    · have hle := ih hrest e he
      rw [Declaration.stop, hoffset] at hle
      exact (Nat.le_add_right _ _).trans hle

/-- Data that fills a range is in the order of its positions. -/
theorem Tiles.pairwise {start stop : Nat} {ds : List Declaration} (h : Tiles start ds stop) :
    ds.Pairwise fun d e => d.offset ≤ e.offset := by
  induction ds generalizing start with
  | nil => exact .nil
  | cons d rest ih =>
    obtain ⟨-, hrest⟩ := h
    refine List.pairwise_cons.mpr ⟨?_, ih hrest⟩
    intro e he
    exact (Nat.le_add_right _ _).trans (hrest.le_offset e he)

/-- The bytes of data that fills a range are as many as the range is long. -/
theorem length_flatMap_payload (ds : List Declaration) :
    (ds.flatMap payload).length = total ds := by
  induction ds with
  | nil => rfl
  | cons d rest ih => rw [List.flatMap_cons, List.length_append, ih, length_payload, total_cons]

end Declaration

namespace Program

variable {p : Program}

/-- Bytes up to their own end are all bytes. -/
theorem fill_length (bytes : List UInt8) : fill bytes.length bytes = bytes := by
  simp [fill]

/-- Data that begins where the bytes end is put behind them, piece by piece. -/
theorem foldl_fill (bytes : List UInt8) {ds : List Declaration} {stop : Nat}
    (h : Declaration.Tiles bytes.length ds stop) :
    ds.foldl (fun bytes d => fill d.offset bytes ++ d.payload) bytes =
      bytes ++ ds.flatMap Declaration.payload := by
  induction ds generalizing bytes with
  | nil => simp
  | cons d rest ih =>
    obtain ⟨hoffset, hrest⟩ := h
    have hlength : (bytes ++ d.payload).length = d.stop := by
      rw [List.length_append, Declaration.length_payload, Declaration.stop, hoffset]
    rw [List.foldl_cons, hoffset, fill_length, ih _ (hlength ▸ hrest), List.flatMap_cons,
      List.append_assoc]

/-- Sorting the data of a section by position leaves it as it was declared. -/
theorem WellFormed.dataOf_eq (h : p.WellFormed) {home : Section} (hne : home ≠ .text) :
    p.dataOf home = p.data.declarationsIn home := by
  apply List.mergeSort_of_pairwise
  simp only [decide_eq_true_eq]
  exact (h.contents.data_filled home hne).pairwise

/-- The bytes of a section are those of its data in the order of positions. -/
theorem WellFormed.payload_eq (h : p.WellFormed) {home : Section} (hne : home ≠ .text) :
    p.payload home = (p.dataOf home).flatMap Declaration.payload := by
  rw [payload, h.dataOf_eq hne]
  exact foldl_fill [] (h.contents.data_filled home hne)

/-- The bytes of a section are as many as its recorded size. -/
theorem WellFormed.length_payload (h : p.WellFormed) {home : Section} (hne : home ≠ .text) :
    (p.payload home).length = p.sizes.get home := by
  have hstop := (h.contents.data_filled home hne).stop_eq
  rw [Nat.zero_add] at hstop
  rw [h.payload_eq hne, h.dataOf_eq hne, Declaration.length_flatMap_payload, h.sizes, hstop]
  rfl

/-- The bytes of a declaration stand at its position. -/
theorem WellFormed.payload_at (h : p.WellFormed) {name : String} {d : Declaration}
    (hd : p.data.get? name = some d) :
    ((p.payload d.home).drop d.offset).take d.length = d.payload := by
  have hne := h.contents.data_home name d hd
  have hmem : d ∈ p.data.declarationsIn d.home := Table.mem_declarationsIn.mpr ⟨⟨name, hd⟩, rfl⟩
  obtain ⟨before, after, hsplit⟩ := List.append_of_mem hmem
  have hfilled := h.contents.data_filled d.home hne
  change Declaration.Tiles 0 (p.data.declarationsIn d.home) _ at hfilled
  rw [hsplit] at hfilled
  have hoffset := hfilled.offset_eq
  rw [Nat.zero_add, ← Declaration.length_flatMap_payload] at hoffset
  rw [h.payload_eq hne, h.dataOf_eq hne, hsplit, List.flatMap_append, List.flatMap_cons, hoffset,
    List.drop_left, ← d.length_payload, List.take_left]

end Program

end AsmLinker
