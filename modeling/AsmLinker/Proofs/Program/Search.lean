import Mathlib
import AsmLinker.Proofs.Symbols.Providers

/-!
# The order in which modules are searched

The modules of a program are asked for one after the other, each one once: those that were named, in
the order in which they first occur, and the standard module behind them if nobody named it
(`Program.searchOrder`). A provider may change with every module that it is asked for, so its answer
about a module is the one that it gives when it has been asked for those before it
(`Program.answer`).

The search ends at the first module that is refused, or it goes through the whole order
(`Program.search_searches`). The standard module alone may be missing, and only if nobody named it:
it is then left out of the modules that are searched for symbols (`Program.searched`).
-/

namespace AsmLinker

namespace Program

variable {σ : Type} [SymbolProvider σ] {modules names : List String} {provider : σ}

/-! ## One answer after the other -/

/-- The provider when it has been asked for some modules, one after the other. -/
def asked (provider : σ) (names : List String) : σ :=
  names.foldl (fun provider name => (SymbolProvider.load provider name).provider) provider

/-- What the provider says to a module when it has been asked for others before. -/
def answer (provider : σ) (before : List String) (name : String) : Except Error Unit :=
  (SymbolProvider.load (asked provider before) name).outcome

/-- Something holds of each name of a list and of the names before it. -/
def Throughout (P : List String → String → Prop) (names : List String) : Prop :=
  ∀ before name after, names = before ++ name :: after → P before name

theorem throughout_nil (P : List String → String → Prop) : Throughout P [] := by
  intro before name after h
  simp at h

theorem throughout_cons {P : List String → String → Prop} {name : String} :
    Throughout P (name :: names) ↔
      P [] name ∧ Throughout (fun before => P (name :: before)) names := by
  constructor
  · intro h
    refine ⟨h [] name names rfl, ?_⟩
    intro before other after hnames
    exact h (name :: before) other after (by rw [hnames, List.cons_append])
  · rintro ⟨hfirst, hrest⟩ before other after hnames
    cases before with
    | nil =>
      obtain ⟨rfl, -⟩ := List.cons.inj hnames
      exact hfirst
    | cons first before =>
      obtain ⟨rfl, htail⟩ := List.cons.inj hnames
      exact hrest before other after htail

theorem throughout_concat {P : List String → String → Prop} {name : String} :
    Throughout P (names ++ [name]) ↔ Throughout P names ∧ P names name := by
  induction names generalizing P with
  | nil => simp [throughout_cons, throughout_nil]
  | cons first rest ih => rw [List.cons_append, throughout_cons, throughout_cons, ih, and_assoc]

theorem Throughout.imp {P Q : List String → String → Prop} (h : Throughout P names)
    (himp : ∀ before name, P before name → Q before name) : Throughout Q names :=
  fun before name after hnames => himp before name (h before name after hnames)

/-- Each of the modules can be loaded when those before it have been asked for. -/
def AllLoad (provider : σ) (names : List String) : Prop :=
  Throughout (fun before name => answer provider before name = .ok ()) names

/-! ## Modules that must be there -/

/-- Without the names that are there and without repetitions, a new name comes first and is left out
of what follows. -/
theorem eraseDups_removeAll_cons {name : String} {loaded : List String} (h : name ∉ loaded) :
    ((name :: names).removeAll loaded).eraseDups =
      name :: (names.removeAll (loaded ++ [name])).eraseDups := by
  have hfirst : (name :: names).removeAll loaded = name :: names.removeAll loaded := by
    simp [List.removeAll, h]
  rw [hfirst, List.eraseDups_cons, List.removeAll, List.filter_filter, List.removeAll]
  congr 3
  funext other
  rw [Bool.eq_iff_iff]
  simp [and_comm]

/-- Modules that must be there are loaded up to the first that is refused, each of them once and
without those that are there already. -/
theorem loadAll_required {optional : String → Bool}
    (hrequired : ∀ name ∈ names, optional name = false)
    (rest loaded : List String) (provider : σ) (log : List LogRecord) :
    let new := (names.removeAll loaded).eraseDups
    (AllLoad provider new ∧ ∃ log', loadAll optional (names ++ rest) loaded provider log =
      loadAll optional rest (loaded ++ new) (asked provider new) log') ∨
    ∃ before name after e, new = before ++ name :: after ∧ AllLoad provider before ∧
      answer provider before name = .error e ∧
      (loadAll optional (names ++ rest) loaded provider log).1.outcome = .error e := by
  induction names generalizing loaded provider log with
  | nil =>
    left
    exact ⟨throughout_nil _, log, by simp [List.removeAll, asked]⟩
  | cons name names ih =>
    obtain ⟨hname, hnames⟩ := List.forall_mem_cons.mp hrequired
    by_cases hloaded : name ∈ loaded
    · -- a name that is there is passed over
      have hsame : (name :: names).removeAll loaded = names.removeAll loaded := by
        simp [List.removeAll, hloaded]
      rw [hsame, List.cons_append, loadAll, if_pos hloaded]
      exact ih hnames loaded provider log
    rw [eraseDups_removeAll_cons hloaded, List.cons_append, loadAll, if_neg hloaded]
    cases houtcome : (SymbolProvider.load provider name).outcome with
    | error e =>
      -- this one may not be missing, whatever the error
      right
      refine ⟨[], name, _, e, rfl, throughout_nil _, houtcome, ?_⟩
      simp [hname, houtcome]
    | ok =>
      simp only [houtcome]
      -- the rest is asked of the provider as it is now
      obtain ⟨hall, log', hload⟩ | ⟨before, other, after, e, hnew, hall, hanswer, hload⟩ :=
        ih hnames (loaded ++ [name]) (SymbolProvider.load provider name).provider
          (log ++ (SymbolProvider.load provider name).log)
      · left
        refine ⟨throughout_cons.mpr ⟨houtcome, hall⟩, log', ?_⟩
        rw [hload, List.append_assoc]
        rfl
      · right
        refine ⟨name :: before, other, after, e, by rw [hnew, List.cons_append], ?_, hanswer, hload⟩
        exact throughout_cons.mpr ⟨houtcome, hall⟩

/-! ## The whole search -/

/-- The modules that are asked for, in order: each one that was named, once, and the standard module
behind them if it was not. -/
def searchOrder (modules : List String) : List String :=
  if standardModule ∈ modules then modules.eraseDups else modules.eraseDups ++ [standardModule]

/-- The modules that are searched for symbols: those that are asked for, without a standard module
that nobody named and that the provider does not have. -/
def searched (modules : List String) (provider : σ) : List String :=
  if standardModule ∈ modules then modules.eraseDups
  else
    match answer provider modules.eraseDups standardModule with
    | .ok () => modules.eraseDups ++ [standardModule]
    | .error e =>
      if isNotFound e then modules.eraseDups else modules.eraseDups ++ [standardModule]

/-- A module is refused: it cannot be loaded, and it is not just a standard module that nobody named
and that is missing. -/
def Refused (modules : List String) (provider : σ) (before : List String) (name : String)
    (e : Error) : Prop :=
  answer provider before name = .error e ∧
    ¬ (isNotFound e = true ∧ mayBeMissing modules name = true)

/-- None of the modules is refused. -/
def NoneRefused (modules : List String) (provider : σ) (names : List String) : Prop :=
  Throughout (fun before name => ∀ e, ¬ Refused modules provider before name e) names

theorem AllLoad.noneRefused (h : AllLoad provider names) : NoneRefused modules provider names := by
  refine h.imp ?_
  rintro before name hok e ⟨herror, -⟩
  rw [hok] at herror
  cases herror

/-- A module that somebody named must be there. -/
theorem mayBeMissing_of_mem {name : String} (h : name ∈ modules) :
    mayBeMissing modules name = false :=
  (mayBeMissing_eq_false_iff (mem_searchList.mpr (.inl h))).mpr h

/-- If all modules that are searched for symbols can be loaded, none that is asked for is
refused. -/
theorem noneRefused_searchOrder (h : AllLoad provider (searched modules provider)) :
    NoneRefused modules provider (searchOrder modules) := by
  rw [searched] at h
  rw [searchOrder]
  split at h
  next hnamed =>
    rw [if_pos hnamed]
    exact h.noneRefused
  next hnamed =>
    rw [if_neg hnamed]
    split at h
    · exact h.noneRefused
    next e hanswer =>
      split at h
      next hmissing =>
        -- the standard module is missing, but nobody named it
        refine throughout_concat.mpr ⟨h.noneRefused, ?_⟩
        rintro e' ⟨hanswer', hrequired⟩
        obtain rfl : e = e' := Except.error.inj (hanswer.symm.trans hanswer')
        exact hrequired ⟨hmissing, by simp [mayBeMissing, hnamed]⟩
      · exact h.noneRefused

/-- What loading the modules of a program can come to. -/
inductive Searches (modules : List String) (provider : σ) : Loading σ × List String → Prop
  /-- Every module that is asked for is there, except perhaps an unnamed standard module. -/
  | ended {result : Loading σ × List String} (hall : AllLoad provider (searched modules provider))
      (houtcome : result.1.outcome = .ok ())
      (hprovider : result.1.provider = asked provider (searchOrder modules))
      (hmodules : result.2 = searched modules provider) : Searches modules provider result
  /-- A module is refused, and none before it. -/
  | stopped {before after : List String} {name : String} {e : Error}
      {result : Loading σ × List String}
      (horder : searchOrder modules = before ++ name :: after)
      (hnone : NoneRefused modules provider before)
      (hrefused : Refused modules provider before name e)
      (houtcome : result.1.outcome = .error e) : Searches modules provider result

/-- A named module that is refused stops the search. -/
theorem Searches.of_named {before after : List String} {name : String} {e : Error}
    {result : Loading σ × List String} (hnew : modules.eraseDups = before ++ name :: after)
    (hall : AllLoad provider before) (hanswer : answer provider before name = .error e)
    (houtcome : result.1.outcome = .error e) : Searches modules provider result := by
  have hmem : name ∈ modules := by
    rw [← List.mem_eraseDups, hnew]
    simp
  have hrefused : Refused modules provider before name e := by
    refine ⟨hanswer, ?_⟩
    rintro ⟨-, hmissing⟩
    rw [mayBeMissing_of_mem hmem] at hmissing
    cases hmissing
  obtain ⟨rest, horder⟩ : ∃ rest, searchOrder modules = modules.eraseDups ++ rest := by
    rw [searchOrder]
    split
    · exact ⟨[], by rw [List.append_nil]⟩
    · exact ⟨_, rfl⟩
  have hsplit : searchOrder modules = before ++ name :: (after ++ rest) := by
    rw [horder, hnew, List.append_assoc, List.cons_append]
  exact .stopped hsplit hall.noneRefused hrefused houtcome

theorem asked_concat (provider : σ) (names : List String) (name : String) :
    asked provider (names ++ [name]) =
      (SymbolProvider.load (asked provider names) name).provider := by
  rw [asked, List.foldl_append]
  rfl

/-- The standard module is asked for last, if nobody named it and every named module is there. -/
theorem Searches.of_unnamed (hnamed : standardModule ∉ modules)
    (hall : AllLoad provider modules.eraseDups) (log : List LogRecord) :
    Searches modules provider (loadAll (mayBeMissing modules) [standardModule] modules.eraseDups
      (asked provider modules.eraseDups) log) := by
  have horder : searchOrder modules = modules.eraseDups ++ [standardModule] := if_neg hnamed
  have hnew : standardModule ∉ modules.eraseDups := mt List.mem_eraseDups.mp hnamed
  have hoptional : mayBeMissing modules standardModule = true := by simp [mayBeMissing, hnamed]
  have hprovider : asked provider (searchOrder modules) =
      (SymbolProvider.load (asked provider modules.eraseDups) standardModule).provider := by
    rw [horder, asked_concat]
  rw [loadAll, if_neg hnew]
  -- what is searched and what the loop does are decided by the same answer
  cases hanswer : answer provider modules.eraseDups standardModule with
  | ok =>
    have hsearched : searched modules provider = modules.eraseDups ++ [standardModule] := by
      rw [searched, if_neg hnamed, hanswer]
    rw [answer] at hanswer
    simp only [hanswer, loadAll]
    refine .ended ?_ rfl hprovider.symm hsearched.symm
    rw [hsearched]
    exact throughout_concat.mpr ⟨hall, hanswer⟩
  | error e =>
    by_cases hmissing : isNotFound e = true
    · have hsearched : searched modules provider = modules.eraseDups := by
        rw [searched, if_neg hnamed, hanswer]
        exact if_pos hmissing
      rw [answer] at hanswer
      simp only [hanswer, hmissing, hoptional, loadAll, Bool.and_self, if_true]
      exact .ended (hsearched ▸ hall) rfl hprovider.symm hsearched.symm
    · have hrefused : Refused modules provider modules.eraseDups standardModule e :=
        ⟨hanswer, fun h => hmissing h.1⟩
      rw [answer] at hanswer
      simp only [hanswer, hmissing]
      exact .stopped horder hall.noneRefused hrefused rfl

/-- Loading the modules of a program goes through the search order, up to the first module that is
refused. -/
theorem search_searches (modules : List String) (provider : σ) :
    Searches modules provider (search modules provider) := by
  have hrequired : ∀ name ∈ modules, mayBeMissing modules name = false :=
    fun name => mayBeMissing_of_mem
  -- nothing is loaded at the start, so that only repetitions are left out
  have hnew : (modules.removeAll []).eraseDups = modules.eraseDups := by simp [List.removeAll]
  obtain ⟨rest, hlist⟩ : ∃ rest, searchList modules = modules ++ rest := by
    rw [searchList]
    split
    · exact ⟨[], by rw [List.append_nil]⟩
    · exact ⟨_, rfl⟩
  have hsearch : search modules provider =
      loadAll (mayBeMissing modules) (modules ++ rest) [] provider [] := by
    rw [← hlist]
    rfl
  obtain ⟨hall, log, hload⟩ | ⟨before, name, after, e, hsplit, hall, hanswer, hload⟩ :=
    loadAll_required hrequired rest [] provider []
  · rw [hnew] at hall hload
    rw [hsearch, hload, List.nil_append]
    by_cases hnamed : standardModule ∈ modules
    · obtain rfl : rest = [] := by simpa [searchList, hnamed] using hlist
      have horder : searchOrder modules = modules.eraseDups := if_pos hnamed
      have hsearched : searched modules provider = modules.eraseDups := if_pos hnamed
      refine .ended (hsearched ▸ hall) rfl ?_ hsearched.symm
      rw [horder]
      rfl
    · obtain rfl : rest = [standardModule] := by simpa [searchList, hnamed, eq_comm] using hlist
      exact .of_unnamed hnamed hall log
  · rw [hsearch]
    exact .of_named (hnew.symm.trans hsplit) hall hanswer hload

/-- The modules of a program can be loaded exactly if this goes for each that is searched for
symbols. -/
theorem search_ok_iff : (search modules provider).1.outcome = .ok () ↔
    AllLoad provider (searched modules provider) := by
  cases search_searches modules provider with
  | ended hall houtcome => exact iff_of_true houtcome hall
  | stopped horder _ hrefused houtcome =>
    -- the module that was refused is not one that may be left out of those searched
    refine iff_of_false (by rw [houtcome]; simp) ?_
    intro hall
    exact noneRefused_searchOrder hall _ _ _ horder _ hrefused

/-- Modules that were all loaded are those that are searched for symbols, and the provider was asked
for each of them in order. -/
theorem search_of_ok (h : (search modules provider).1.outcome = .ok ()) :
    (search modules provider).1.provider = asked provider (searchOrder modules) ∧
      (search modules provider).2 = searched modules provider := by
  cases search_searches modules provider with
  | ended _ _ hprovider hmodules => exact ⟨hprovider, hmodules⟩
  | stopped _ _ _ houtcome =>
    rw [houtcome] at h
    cases h

/-- Loading the modules fails with the error of the first one that is refused. -/
theorem search_of_error {e : Error} (h : (search modules provider).1.outcome = .error e) :
    ∃ before name after, searchOrder modules = before ++ name :: after ∧
      NoneRefused modules provider before ∧ Refused modules provider before name e := by
  cases search_searches modules provider with
  | ended _ houtcome =>
    rw [houtcome] at h
    cases h
  | stopped horder hnone hrefused houtcome =>
    rw [houtcome] at h
    cases h
    exact ⟨_, _, _, horder, hnone, hrefused⟩

end Program

end AsmLinker
