import Mathlib
import AsmLinker.Proofs.Image.Addresses
import AsmLinker.Proofs.Program.Payload
import AsmLinker.Proofs.Program.Resolved

/-!
# Data that is placed anywhere

Declarations can also be merged that do not fill their sections in order: with gaps between them,
and in any order of insertion. As long as they are not empty and no two of them overlap, sorting
them by position puts each one behind the end of the one before it. The bytes of the section are
then only ever padded and never cut off, so that each declaration is found at its position and all
else is zero (`Declaration.StoredIn`, `Program.payload_places`).
-/

namespace AsmLinker

/-- Tables that find the same have the same entries. -/
theorem Table.perm_of_get?_eq {α : Type} {t u : Table α}
    (h : ∀ name, t.get? name = u.get? name) : t.entries.Perm u.entries := by
  refine (List.perm_ext_iff_of_nodup (.of_map _ t.nodup) (.of_map _ u.nodup)).mpr ?_
  rintro ⟨name, value⟩
  rw [← get?_eq_some_iff, ← get?_eq_some_iff, h]

/-! ## Declarations one behind the other -/

namespace Declaration

/-- The positions that a declaration covers. -/
def range (d : Declaration) : Set Nat :=
  Set.Ico d.offset d.stop

/-- The second declaration lies behind the first one. -/
def Before (d e : Declaration) : Prop :=
  d.stop ≤ e.offset

/-- The bytes end where the last of the declarations does, hold each declaration at its position,
and hold zeros where there is none. -/
structure StoredIn (ds : List Declaration) (bytes : List UInt8) : Prop where
  /-- The bytes end where the last declaration does. -/
  length : bytes.length = (ds.map stop).foldr max 0
  /-- Each declaration stands at its position. -/
  stored : ∀ d ∈ ds, (bytes.drop d.offset).take d.length = d.payload
  /-- All else is zero. -/
  zero : ∀ i < bytes.length, (∀ d ∈ ds, i ∉ d.range) → bytes[i]? = some 0

variable {ds es : List Declaration} {d e : Declaration} {bytes : List UInt8}

/-- Of declarations that do not overlap, the one that begins first ends before the other begins, if
the other is not empty. -/
theorem before_of_disjoint (hle : d.offset ≤ e.offset) (hnonempty : 0 < e.length)
    (h : Disjoint d.range e.range) : d.Before e := by
  by_contra hafter
  have hlt : e.offset < d.stop := not_le.mp hafter
  exact Set.disjoint_left.mp h ⟨hle, hlt⟩ ⟨le_rfl, Nat.lt_add_of_pos_right hnonempty⟩

theorem Before.asymm (hd : 0 < d.length) (h : d.Before e) : ¬ e.Before d := by
  unfold Before stop at *
  omega

/-- Bytes up to a position behind their end are padded and not cut off. -/
theorem fill_of_le {position : Nat} (h : bytes.length ≤ position) :
    Program.fill position bytes = bytes ++ List.replicate (position - bytes.length) 0 := by
  rw [Program.fill, List.take_of_length_le h]

theorem foldr_max_concat (ds : List Declaration) (d : Declaration) :
    ((ds ++ [d]).map stop).foldr max 0 = max ((ds.map stop).foldr max 0) d.stop := by
  induction ds with
  | nil => simp
  | cons e rest ih => rw [List.cons_append, List.map_cons, List.foldr_cons, ih, List.map_cons,
      List.foldr_cons, max_assoc]

/-- A declaration that lies behind the bytes is put behind them, with zeros in between. -/
theorem StoredIn.concat (h : StoredIn ds bytes) (hbehind : bytes.length ≤ d.offset) :
    StoredIn (ds ++ [d]) (Program.fill d.offset bytes ++ d.payload) := by
  have hle : bytes.length ≤ d.stop := hbehind.trans (Nat.le_add_right _ _)
  have hstop : d.offset - bytes.length + d.length + bytes.length = d.stop := by
    rw [stop]
    omega
  rw [fill_of_le hbehind, List.append_assoc]
  refine ⟨?_, ?_, ?_⟩
  · rw [foldr_max_concat, ← h.length, max_eq_right hle, ← hstop]
    simp only [List.length_append, List.length_replicate, length_payload]
    omega
  · intro e he
    rcases List.mem_append.mp he with hold | hnew
    · rw [take_drop_append _ (by rw [h.stored e hold, length_payload]), h.stored e hold]
    · obtain rfl := List.mem_singleton.mp hnew
      rw [← List.append_assoc, List.drop_left' (by simp; omega), ← length_payload,
        List.take_length]
  · intro i hi hfree
    by_cases hold : i < bytes.length
    · rw [List.getElem?_append_left hold]
      exact h.zero i hold fun e he => hfree e (List.mem_append_left _ he)
    · -- behind the old bytes only the gap is not covered by the new declaration
      have hgap : i < d.offset := by
        by_contra hcovered
        refine hfree d (by simp) ⟨not_lt.mp hcovered, ?_⟩
        simp only [List.length_append, List.length_replicate, length_payload] at hi
        omega
      rw [List.getElem?_append_right (not_lt.mp hold), List.getElem?_append_left (by simp; omega),
        List.getElem?_replicate, if_pos (by omega)]

/-- Declarations of which each lies behind those before it are placed one after the other. -/
theorem StoredIn.foldl (h : StoredIn ds bytes) (hordered : (ds ++ es).Pairwise Before) :
    StoredIn (ds ++ es)
      (es.foldl (fun bytes d => Program.fill d.offset bytes ++ d.payload) bytes) := by
  induction es generalizing ds bytes with
  | nil => rwa [List.append_nil]
  | cons d rest ih =>
    have hsplit := List.pairwise_append.mp hordered
    have hbehind : bytes.length ≤ d.offset := by
      rw [h.length]
      exact List.max_le_of_forall_le _ _
        (List.forall_mem_map.mpr fun e he => hsplit.2.2 e he d (by simp))
    have hnext := ih (h.concat hbehind) (by simpa using hordered)
    simpa using hnext

end Declaration

namespace Program

variable {p q : Program} {home : Section}

/-! ## The bytes of a section -/

/-- The data of a section is not empty and does not overlap. -/
structure Separate (p : Program) (home : Section) : Prop where
  /-- No declaration is empty. -/
  nonempty : ∀ d ∈ p.data.declarationsIn home, 0 < d.length
  /-- No two declarations cover the same position. -/
  disjoint : (p.data.declarationsIn home).Pairwise fun d e => Disjoint d.range e.range

theorem dataOf_perm (p : Program) (home : Section) :
    (p.dataOf home).Perm (p.data.declarationsIn home) :=
  List.mergeSort_perm _ _

/-- Sorted by position, each declaration lies behind those before it. -/
theorem Separate.ordered (h : p.Separate home) : (p.dataOf home).Pairwise Declaration.Before := by
  have hsorted : (p.dataOf home).Pairwise fun d e => d.offset ≤ e.offset := by
    have hpairwise : (p.dataOf home).Pairwise fun d e => decide (d.offset ≤ e.offset) = true := by
      apply List.pairwise_mergeSort
      · intro a b c
        simpa using Nat.le_trans
      · intro a b
        simpa using Nat.le_total a.offset b.offset
    simpa using hpairwise
  have hdisjoint : (p.dataOf home).Pairwise fun d e => Disjoint d.range e.range :=
    h.disjoint.perm (p.dataOf_perm home).symm fun hde => hde.symm
  refine (hsorted.and hdisjoint).imp_of_mem ?_
  intro d e _ he hboth
  exact Declaration.before_of_disjoint hboth.1
    (h.nonempty e ((p.dataOf_perm home).mem_iff.mp he)) hboth.2

theorem Separate.storedIn (h : p.Separate home) :
    Declaration.StoredIn (p.dataOf home) (p.payload home) := by
  have hempty : Declaration.StoredIn [] [] := ⟨rfl, by simp, by simp⟩
  exact hempty.foldl h.ordered

/-- Programs with the same data have the same bytes in a section where it is separate. -/
theorem Separate.payload_eq (h : p.Separate home)
    (hsame : (q.data.declarationsIn home).Perm (p.data.declarationsIn home)) :
    q.payload home = p.payload home := by
  have hperm := (q.dataOf_perm home).trans (hsame.trans (p.dataOf_perm home).symm)
  have hq : q.Separate home :=
    ⟨fun d hd => h.nonempty d (hsame.mem_iff.mp hd), h.disjoint.perm hsame.symm fun hde => hde.symm⟩
  -- of two declarations only one can lie behind the other, so that there is one order
  have heq : q.dataOf home = p.dataOf home := by
    refine hperm.eq_of_pairwise ?_ hq.ordered h.ordered
    intro d e hd _ hbefore hafter
    exact absurd hafter (hbefore.asymm (hq.nonempty d ((q.dataOf_perm home).mem_iff.mp hd)))
  rw [payload, payload, heq]

/-! ## Merging maps of data -/

/-- Merges maps of data in order; one that is refused leaves no trace. -/
def mergeMaps (p : Program) (maps : List (Table Declaration)) : Program :=
  maps.foldl (fun p data => p.taking (p.mergeData data)) p

/-- The programs have the same sizes and the same data, in whatever order it was inserted. -/
structure SameData (p q : Program) : Prop where
  /-- The sizes are the same. -/
  sizes : p.sizes = q.sizes
  /-- The data is the same. -/
  data : p.data.entries.Perm q.data.entries

theorem SameData.declarationsIn (h : p.SameData q) (home : Section) :
    (p.data.declarationsIn home).Perm (q.data.declarationsIn home) :=
  (h.data.map Prod.snd).filter _

/-- Sections grow alike, in whatever order the data comes. -/
theorem grow_perm (sizes : PerSection Nat) {ds es : List Declaration} (h : ds.Perm es) :
    grow sizes ds = grow sizes es := by
  have hcomm : RightCommutative fun size (d : Declaration) => max size d.stop :=
    ⟨fun size d e => max_right_comm size d.stop e.stop⟩
  apply PerSection.ext_get
  intro home
  rw [get_grow, get_grow, (h.filter _).foldl_eq]

/-- Data of which the program has none is appended, at its positions in the program. -/
theorem taking_mergeData_of_disjoint {data : Table Declaration} (h : p.data.Disjoint data) :
    let placed := data.entries.map fun entry => (entry.1, placeData p.sizes entry.2)
    (p.taking (p.mergeData data)).sizes = grow p.sizes (placed.map Prod.snd) ∧
      (p.taking (p.mergeData data)).data.entries = p.data.entries ++ placed := by
  rw [mergeData, find?_eq_none_iff_disjoint.mpr h]
  exact ⟨rfl, entries_insertAll_of_disjoint (placeData p.sizes) h⟩

/-- Data of which the program has some is refused. -/
theorem taking_mergeData_of_shared {data : Table Declaration} (h : ¬ p.data.Disjoint data) :
    p.taking (p.mergeData data) = p := by
  rw [mergeData]
  split
  · rfl
  next hfind => exact absurd (find?_eq_none_iff_disjoint.mp hfind) h

/-- A map of data is taken or refused alike, in whatever order it was filled. -/
theorem SameData.taking {data data' : Table Declaration} (h : p.SameData q)
    (hperm : data.entries.Perm data'.entries) :
    (p.taking (p.mergeData data)).SameData (q.taking (q.mergeData data')) := by
  have hdisjoint : p.data.Disjoint data ↔ q.data.Disjoint data' := by
    have hkeys : ∀ key, key ∈ p.data.keys ↔ key ∈ q.data.keys := fun key =>
      (h.data.map Prod.fst).mem_iff
    have hkeys' : ∀ key, key ∈ data.keys ↔ key ∈ data'.keys := fun key =>
      (hperm.map Prod.fst).mem_iff
    simp only [Table.Disjoint, hkeys, hkeys']
  by_cases hfree : p.data.Disjoint data
  · obtain ⟨hsizes, hentries⟩ := taking_mergeData_of_disjoint hfree
    obtain ⟨hsizes', hentries'⟩ := taking_mergeData_of_disjoint (hdisjoint.mp hfree)
    have hplaced := hperm.map fun entry => (entry.1, placeData p.sizes entry.2)
    constructor
    · rw [hsizes, hsizes', ← h.sizes]
      exact grow_perm p.sizes (hplaced.map Prod.snd)
    · rw [hentries, hentries', ← h.sizes]
      exact h.data.append hplaced
  · rw [taking_mergeData_of_shared hfree,
      taking_mergeData_of_shared fun hfree' => hfree (hdisjoint.mpr hfree')]
    exact h

/-- Maps that hold the same data in another order are merged to the same data. -/
theorem SameData.mergeMaps {maps maps' : List (Table Declaration)} (h : p.SameData q)
    (hperm : List.Forall₂ (fun data data' => data.entries.Perm data'.entries) maps maps') :
    (p.mergeMaps maps).SameData (q.mergeMaps maps') := by
  induction hperm generalizing p q with
  | nil => exact h
  | cons hfirst _ ih => exact ih (h.taking hfirst)

/-- Let maps of data be merged into a program, some of which may be refused, so that the data of a
section is not empty and does not overlap. Then the bytes of the section end where the farthest
declaration does, hold each declaration at its position, and are zero at every position that none
covers. They are the same in whatever order the maps were filled, and for every program that finds
the same data. -/
theorem payload_places {maps : List (Table Declaration)}
    (hnonempty : ∀ d ∈ (p.mergeMaps maps).data.declarationsIn home, 0 < d.length)
    (hdisjoint : ((p.mergeMaps maps).data.declarationsIn home).Pairwise fun d e =>
      Disjoint (Set.Ico d.offset (d.offset + d.length)) (Set.Ico e.offset (e.offset + e.length))) :
    let merged := p.mergeMaps maps
    (merged.payload home).length =
        ((merged.data.declarationsIn home).map fun d => d.offset + d.length).foldr max 0 ∧
      (∀ d ∈ merged.data.declarationsIn home,
        ((merged.payload home).drop d.offset).take d.length = d.payload) ∧
      (∀ i < (merged.payload home).length,
        (∀ d ∈ merged.data.declarationsIn home, i ∉ Set.Ico d.offset (d.offset + d.length)) →
          (merged.payload home)[i]? = some 0) ∧
      (∀ maps' : List (Table Declaration),
        List.Forall₂ (fun data data' => data.entries.Perm data'.entries) maps maps' →
          (p.mergeMaps maps').payload home = merged.payload home) ∧
      ∀ other : Program, (∀ name, other.data.get? name = merged.data.get? name) →
        other.payload home = merged.payload home := by
  intro merged
  have hseparate : merged.Separate home := ⟨hnonempty, hdisjoint⟩
  have hstored := hseparate.storedIn
  have hmem : ∀ d, d ∈ merged.dataOf home ↔ d ∈ merged.data.declarationsIn home := fun d =>
    (merged.dataOf_perm home).mem_iff
  refine ⟨?_, ?_, ?_, ?_, ?_⟩
  · have hcomm : LeftCommutative (max : Nat → Nat → Nat) := ⟨max_left_comm⟩
    rw [hstored.length, ((merged.dataOf_perm home).map Declaration.stop).foldr_eq]
    rfl
  · intro d hd
    exact hstored.stored d ((hmem d).mpr hd)
  · intro i hi hfree
    exact hstored.zero i hi fun d hd => hfree d ((hmem d).mp hd)
  · intro maps' hperm
    have hsame : merged.SameData (p.mergeMaps maps') := SameData.mergeMaps ⟨rfl, .refl _⟩ hperm
    exact hseparate.payload_eq (hsame.declarationsIn home).symm
  · intro other hsame
    exact hseparate.payload_eq (((Table.perm_of_get?_eq hsame).map Prod.snd).filter _)

/-- A map that was filled from behind, with a gap, and a second one whose data is moved behind the
first: the bytes of the section, and the same from a map that was filled in order. -/
theorem payload_places_of_gap :
    let entry (name : String) (encoding : Encoding) (offset : Nat) (bytes : List UInt8) :
        String × Declaration := (name, { name, home := .data, encoding, offset, bytes })
    let merged (first : List (String × Declaration)) : Program :=
      ({} : Program).mergeMaps [.ofList first, .ofList [entry "c" .zeroTerminated 0 [7]]]
    let backwards := [entry "b" .raw 5 [1, 2], entry "a" .raw 1 [9]]
    ((merged backwards).payload .data).length = 9 ∧
      ((merged backwards).payload .data)[3]? = some 0 ∧
      (merged backwards.reverse).payload .data = (merged backwards).payload .data := by
  intro entry merged backwards
  have hnonempty : ∀ d ∈ (merged backwards).data.declarationsIn .data, 0 < d.length := by
    decide +kernel
  have hdisjoint : ((merged backwards).data.declarationsIn .data).Pairwise fun d e =>
      Disjoint (Set.Ico d.offset (d.offset + d.length))
        (Set.Ico e.offset (e.offset + e.length)) := by
    simp only [Set.Ico_disjoint_Ico]
    decide +kernel
  obtain ⟨hlength, -, hzero, horder, -⟩ := payload_places hnonempty hdisjoint
  have hlength' : ((merged backwards).payload .data).length = 9 := hlength
  have hlt : 3 < ((merged backwards).payload .data).length := by omega
  refine ⟨hlength', hzero 3 hlt ?_, horder _ (.cons ?_ (.cons (.refl _) .nil))⟩
  · decide +kernel
  · decide +kernel

end Program

end AsmLinker
