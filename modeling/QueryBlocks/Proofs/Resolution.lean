import QueryBlocks.Proofs.Expansion
import QueryBlocks.Proofs.Query.Written

/-!
Looking up types serves diagnostics only. Compiling a block with a lookup gives the query that
compiling it without one gives, and the same problems if those of resolution are left out. So the
types of the settings have no part in what a script is expanded to.
-/
namespace QueryBlocks

/-! ### Blocks -/

theorem filter_ne_resolution_of_formal {xs : List Diagnostic}
    (h : ∀ x ∈ xs, x.category.Formal) : xs.filter (fun x => x.category != .resolution) = xs := by
  rw [List.filter_eq_self]
  intro x hx
  rcases h x hx with hc | hc <;> simp [hc]

theorem filter_ne_resolution_of_eq {xs : List Diagnostic}
    (h : ∀ x ∈ xs, x.category = .resolution) :
    xs.filter (fun x => x.category != .resolution) = [] := by
  rw [List.filter_eq_nil_iff]
  intro x hx
  simp [h x hx]

namespace Draft

variable {a b : Settings} {lookup : TypeLookup} {d : Draft} {pos : Position}

/-- What a draft would be if no type had been looked up. -/
def blind (d : Draft) : Draft where
  query := d.query
  fields := none
  diagnostics := d.diagnostics.filter fun x => x.category != .resolution

theorem blind_reportAll {problems : List Diagnostic} : (d.reportAll problems).blind =
    d.blind.reportAll (problems.filter fun x => x.category != .resolution) := by
  simp [blind, reportAll]

theorem blind_reportAll_of_formal {problems : List Diagnostic}
    (h : ∀ x ∈ problems, x.category.Formal) :
    (d.reportAll problems).blind = d.blind.reportAll problems := by
  rw [blind_reportAll, filter_ne_resolution_of_formal h]

theorem blind_report_of_ne {causes : List Cause}
    (h : ∀ cause ∈ causes, cause.category ≠ .resolution) :
    (d.report causes pos).blind = d.blind.report causes pos := by
  refine blind_reportAll.trans (congrArg _ ?_)
  rw [List.filter_eq_self, List.forall_mem_map]
  intro cause hcause
  simpa [Diagnostic.category] using h cause hcause

theorem blind_report_of_resolution {causes : List Cause}
    (h : ∀ cause ∈ causes, cause.category = .resolution) :
    (d.report causes pos).blind = d.blind := by
  refine blind_reportAll.trans ?_
  rw [filter_ne_resolution_of_eq (List.forall_mem_map.2 h)]
  simp [reportAll]

theorem blind_takeSettings {keyword : Keyword} {allowed : List FetchParam} {args : List Expr} :
    (d.takeSettings keyword allowed args).1.blind =
      (d.blind.takeSettings keyword allowed args).1 := by
  have hreport := blind_reportAll_of_formal (d := d)
    fun x (hx : x ∈ refused (args.map (Setting.read keyword allowed))) => formal_of_refused hx
  simp only [takeSettings, ← hreport]
  rfl

theorem blind_select {args : List Expr} :
    (d.select pos args).blind = d.blind.select pos args := by
  simp only [select, ← blind_reportAll_of_formal fun _ => formal_of_selectMode,
    ← blind_takeSettings]
  rfl

theorem blind_cursor {args : List Expr} : (d.cursor args).blind = d.blind.cursor args := by
  simp only [cursor, ← blind_reportAll_of_formal fun _ => formal_of_cursorMode,
    ← blind_takeSettings]
  rfl

theorem blind_fetchOptions {args : List Expr} :
    (d.fetchOptions args).blind = d.blind.fetchOptions args := by
  simp only [fetchOptions, ← blind_takeSettings]
  rfl

theorem resolve_permissive {first : Expr} {target : Option Target} :
    resolve .permissive first target = (none, []) := by
  rcases target with _ | _ | _ | _ <;> rfl

/-- Of the problems of a `from` only those with its type are of resolution. -/
theorem filter_from_problems (lookup : TypeLookup) {first : Expr} {more : List Expr}
    {origin : Origin} :
    ((Target.read first).2 ++ (resolve lookup first (Target.read first).1).2 ++
        (completeOrigin pos first more origin).2).filter (fun x => x.category != .resolution) =
      (Target.read first).2 ++ [] ++ (completeOrigin pos first more origin).2 := by
  rw [List.filter_append, List.filter_append,
    filter_ne_resolution_of_formal fun _ => Target.formal_of_read,
    filter_ne_resolution_of_eq fun _ => resolve_category,
    filter_ne_resolution_of_formal fun _ => formal_of_completeOrigin]

theorem blind_from {args : List Expr} :
    (d.from lookup pos args).blind = d.blind.from .permissive pos args := by
  cases args with
  | nil => exact blind_report_of_ne (by simp [Cause.category])
  | cons first more =>
    have harity : (if more.length > 1 then d.report [.fromArity] pos else d).blind =
        if more.length > 1 then d.blind.report [.fromArity] pos else d.blind := by
      split
      · exact blind_report_of_ne (by simp [Cause.category])
      · rfl
    simp only [Draft.from, resolve_permissive, ← harity, ← filter_from_problems lookup,
      ← blind_reportAll]
    rfl

theorem report_nil : d.report [] pos = d := by
  simp [report]

section arguments

variable {α : Type} {r : Restriction α} {first : Bool}

theorem blind_take (hr : r.Lawful) {arg : Expr} :
    (d.take a r first arg).1.blind = (d.blind.take b r first arg).1 := by
  unfold take
  cases hread : r.read arg with
  | error x =>
    refine blind_reportAll_of_formal ?_
    simpa using hr.formal hread
  | ok read =>
    obtain ⟨item, fieldPos⟩ := read
    have hreports : ((d.report (fieldCauses a d.fields (r.field item)) fieldPos).report
        (r.causes d.query first item) arg.pos).blind =
          (d.blind.report [] fieldPos).report (r.causes d.query first item) arg.pos := by
      rw [report_nil, blind_report_of_ne,
        blind_report_of_resolution fun _ => fieldCauses_category]
      intro cause hcause
      simp [hr.semantic hcause]
    exact congrArg (fun e : Draft => { e with query := r.add d.query item }) hreports

theorem blind_takeAll (hr : r.Lawful) {args : List Expr} :
    (d.takeAll a r first args).1.blind = (d.blind.takeAll b r first args).1 := by
  induction args generalizing d first with
  | nil => rfl
  | cons arg more ih => rw [takeAll_cons_fst, takeAll_cons_fst, ih, blind_take hr]

end arguments

/-- Of the settings only the name of the key is read. -/
theorem filtering_congr (hkey : a.keyProperty = b.keyProperty) :
    Restriction.filtering a = Restriction.filtering b := by
  simp [Restriction.filtering, Query.filterCauses, hkey]

theorem sorting_congr (hkey : a.keyProperty = b.keyProperty) :
    Restriction.sorting a = Restriction.sorting b := by
  simp [Restriction.sorting, Query.sortCauses, hkey]

/-- A keyword does to a draft what it would do without a lookup, apart from what it reports of
resolution. -/
theorem blind_keyword (hkey : a.keyProperty = b.keyProperty) {args : List Expr} {word : Keyword} :
    (d.keyword a lookup pos args word).blind = d.blind.keyword b .permissive pos args word := by
  cases word with
  | select => exact blind_select
  | cursor => exact blind_cursor
  | «from» => exact blind_from
  | «where» =>
    have htaken : (d.takeAll a (.filtering b) true args).1.blind = _ :=
      blind_takeAll (b := b) (Restriction.lawful_filtering b)
    simp only [keyword, «where», filtering_congr hkey, taken_takeAll, ← htaken]
    rfl
  | orderBy =>
    have htaken : (d.takeAll a (.sorting b) true args).1.blind = _ :=
      blind_takeAll (b := b) (Restriction.lawful_sorting b)
    simp only [keyword, orderBy, sorting_congr hkey, taken_takeAll, ← htaken]
    rfl
  | fetchOptions => exact blind_fetchOptions

theorem blind_statement (hkey : a.keyProperty = b.keyProperty) (s : Stmt) :
    (d.statement a lookup s).blind = d.blind.statement b .permissive s := by
  unfold statement
  split
  · split
    · split
      · rfl
      · exact blind_report_of_ne (by simp [Cause.category])
    · split
      · exact blind_keyword hkey
      · exact blind_report_of_ne (by simp [Cause.category])
    · exact blind_report_of_ne (by simp [Cause.category])
  · exact blind_report_of_ne (by simp [Cause.category])

theorem blind_foldl (hkey : a.keyProperty = b.keyProperty) (lookup : TypeLookup)
    (statements : List Stmt) (d : Draft) :
    (statements.foldl (statement a lookup) d).blind =
      statements.foldl (statement b .permissive) d.blind := by
  induction statements generalizing d with
  | nil => rfl
  | cons s more ih => rw [List.foldl_cons, ih, blind_statement hkey, List.foldl_cons]

end Draft

/-- With a lookup a block is compiled as without one, and only problems of resolution come in. -/
theorem compile_permissive {a b : Settings} (hkey : a.keyProperty = b.keyProperty)
    (lookup : TypeLookup) (statements : List Stmt) :
    compile b .permissive statements = ((compile a lookup statements).1,
      (compile a lookup statements).2.filter fun x => x.category != .resolution) := by
  have hrun := Draft.blind_foldl hkey lookup statements .empty
  have hquery := congrArg Draft.query hrun
  have hproblems := congrArg Draft.diagnostics hrun
  exact Prod.ext hquery.symm hproblems.symm

/-! ### Scripts -/

/-- The settings with other types. -/
def Settings.withTypes (s : Settings) (strict : Bool) (types : List (String × List String)) :
    Settings := { s with strictTypes := strict, types }

section

variable (settings : Settings) (strict : Bool) (types : List (String × List String))
  (lookup : TypeLookup) (reader : CodeReader)

/-- Where the sites are does not depend on types, and what is said about them may be said in other
words. -/
theorem Part.atSites_withTypes {ω ω' : Type} {act : SiteAction ω} {act' : SiteAction ω'}
    {f : ω → ω'} (h : ∀ site, act' site = ((act site).1, (act site).2.map f)) (n : Part) :
    n.atSites (settings.withTypes strict types) act' =
      ((n.atSites settings act).1, (n.atSites settings act).2.map f) := by
  induction n using induct with
  | step n ih =>
    by_cases hclosed : n.Closed settings
    · rcases hclosed with ⟨site, hsite⟩ | hskip
      · have hother : n.IsSite (settings.withTypes strict types) site := hsite
        obtain ⟨place, closure, rfl, hacted⟩ := atSites_of_site act hsite
        obtain ⟨_, _, hn, hacted'⟩ := atSites_of_site act' hother
        cases hn
        rw [hacted, hacted', h]
      · have hother : n.IsSkipped (settings.withTypes strict types) := hskip
        rw [atSites_of_skipped hskip, atSites_of_skipped hother, List.map_nil]
    · have hother : ¬ n.Closed (settings.withTypes strict types) := hclosed
      have hpassed : Passed settings act n := passed hclosed
      have hpassed' : Passed (settings.withTypes strict types) act' n := passed hother
      refine Prod.ext (ext_children ?_ ?_) ?_
      · rw [hpassed.head, hpassed'.head]
      · rw [hpassed.children, hpassed'.children]
        refine List.map_congr_left fun c hc => ?_
        rw [ih c hc]
      · have hsaid (c : Part) (hc : c ∈ n.children) :
            (c.atSites (settings.withTypes strict types) act').2 =
              (c.atSites settings act).2.map f := congrArg Prod.snd (ih c hc)
        rw [hpassed.said, hpassed'.said, List.map_flatMap]
        simp only [List.flatMap_def, List.map_congr_left hsaid]

/-- A report without the problems of resolution. -/
def Report.withoutResolution (r : Report) : Report :=
  { r with diagnostics := r.diagnostics.filter fun x => x.category != .resolution }

def SiteReport.withoutResolution (r : SiteReport) : SiteReport :=
  { r with diagnostics := r.diagnostics.filter fun x => x.category != .resolution }

theorem Report.withoutResolution_ofSites (sites : List SiteReport) :
    (Report.ofSites sites).withoutResolution =
      .ofSites (sites.map SiteReport.withoutResolution) := by
  simp [withoutResolution, ofSites, SiteReport.withoutResolution, List.flatMap_map,
    List.filterMap_map, List.filter_flatMap, Function.comp_def]

theorem Site.expand_withTypes (site : Site) :
    site.expand (settings.withTypes strict types) .permissive reader =
      ((site.expand settings lookup reader).1,
        (site.expand settings lookup reader).2.map SiteReport.withoutResolution) := by
  have hkey : settings.keyProperty = (settings.withTypes strict types).keyProperty := rfl
  have hcompiled : site.compiled (settings.withTypes strict types) .permissive =
      ((site.compiled settings lookup).1,
        (site.compiled settings lookup).2.filter fun x => x.category != .resolution) :=
    compile_permissive hkey lookup site.body.statements
  have hcode : site.code (settings.withTypes strict types) .permissive =
      site.code settings lookup := by
    rw [code, hcompiled]
    rfl
  rw [expand_eq, expand_eq, hcode, hcompiled]
  cases classify site.body.statements with
  | none => rfl
  | some classification =>
    cases reader (site.code settings lookup) with
    | ok body => simp [SiteReport.withoutResolution, entry, hcode, hcompiled]
    | error e => simp [SiteReport.withoutResolution, List.filter_cons, category_unreadable]

theorem Script.expandWith_withTypes (script : Script) :
    script.expandWith (settings.withTypes strict types) .permissive reader =
      ((script.expandWith settings lookup reader).1,
        (script.expandWith settings lookup reader).2.withoutResolution) := by
  have hsites := Part.atSites_withTypes settings strict types
    (Site.expand_withTypes settings strict types lookup reader) (.script script)
  simp only [Part.atSites_script, Prod.ext_iff, Prod.map_fst, Prod.map_snd, id,
    Part.script.injEq] at hsites
  simp only [expandWith, hsites.1, hsites.2, Report.withoutResolution_ofSites]

/-- The lookup of a script differs with the types of the settings, and without it there is no
difference. -/
theorem Script.expand_withTypes (script : Script) :
    (script.expand (settings.withTypes strict types)).map id Report.withoutResolution =
      (script.expand settings).map id Report.withoutResolution :=
  calc (script.expand (settings.withTypes strict types)).map id Report.withoutResolution
      _ = script.expandWith (settings.withTypes true []) .permissive .standard :=
        (expandWith_withTypes (settings.withTypes strict types) true [] _ .standard script).symm
      _ = (script.expand settings).map id Report.withoutResolution :=
        expandWith_withTypes settings true [] _ .standard script

theorem Settings.validate_withTypes : (settings.withTypes strict types).validate =
    settings.validate.map (·.withTypes strict types) := by
  simp only [validate, apply_ite (Except.map fun s : Settings => s.withTypes strict types)]
  rfl

end

/-- Types have a part in the problems of resolution and in nothing else: the query of a block and
its other problems are the same for every lookup, and for whatever types the settings have, the text
that a script is expanded to, the queries in the report and the other problems are the same. -/
theorem types_only_affect_resolution :
    (∀ (settings : Settings) (lookup other : TypeLookup) (statements : List Stmt),
      (compile settings lookup statements).1 = (compile settings other statements).1 ∧
      (compile settings lookup statements).2.filter (fun x => x.category != .resolution) =
        (compile settings other statements).2.filter (fun x => x.category != .resolution)) ∧
    ∀ (settings : Settings) (strict : Bool) (types : List (String × List String))
      (source : String),
      (expandText (settings.withTypes strict types) source).map
          (Prod.map id Report.withoutResolution) =
        (expandText settings source).map (Prod.map id Report.withoutResolution) := by
  constructor
  · intro settings lookup other statements
    have hlookup := compile_permissive (a := settings) (b := settings) rfl lookup statements
    have hother := compile_permissive (a := settings) (b := settings) rfl other statements
    exact Prod.ext_iff.1 (hlookup.symm.trans hother)
  · intro settings strict types source
    unfold expandText
    rw [settings.validate_withTypes]
    cases settings.validate with
    | error fault => simp only [Except.map, Except.mapError, bind, Except.bind]
    | ok settings =>
      cases Script.read source with
      | error e => simp only [Except.map, Except.mapError, bind, Except.bind]
      | ok script =>
        have hexpand := script.expand_withTypes settings strict types
        simp only [Prod.ext_iff, Prod.map_fst, Prod.map_snd, id] at hexpand
        simp only [Except.map, Except.mapError, bind, Except.bind, pure, Except.pure, Prod.map,
          hexpand.1, hexpand.2]

end QueryBlocks
