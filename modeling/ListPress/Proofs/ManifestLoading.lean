import ListPress.Manifest.Load
import ListPress.Proofs.Paths
import ListPress.Proofs.SiteRuns
import ListPress.Proofs.Traversal

/-! # What loading a manifest means

An entry of a manifest puts one text under its name, and which text that is depends on its file and,
for a style sheet, on the variables (`Manifest.TemplateText`, `Manifest.StyleText`). The variables
come first and entries change none of them, so a load that succeeds leaves under each name the text
of the last entry of that name, or what was there before; and to load again changes nothing
(`Manifest.load_keeps_last_entries`). -/

namespace ListPress
open List

namespace Datum

/-- The markup of a document. -/
def markup (d : Datum) : Except StructureError String :=
  let stored := Heap.empty.store d
  stored.1.markup stored.2

/-- The style sheet of a document. -/
def style (vars : Bindings) (d : Datum) : Except StructureError String :=
  let stored := Heap.empty.store d
  stored.1.style vars stored.2

end Datum

namespace Site

/-! ## Sites by their look-ups -/

/-- Sites with the same kinds of texts are determined by what is looked up in them. -/
theorem ext_lookup {site site' : Site} (htemplates : site.templates.kind = site'.templates.kind)
    (hstyles : site.styles.kind = site'.styles.kind)
    (H : ∀ place name, site.lookup place name = site'.lookup place name) : site = site' := by
  obtain ⟨⟨_, templates⟩, ⟨_, styles⟩, vars⟩ := site
  obtain ⟨⟨_, templates'⟩, ⟨_, styles'⟩, vars'⟩ := site'
  cases htemplates
  cases hstyles
  have : templates = templates' := Table.ext_get? (H .template)
  have : styles = styles' := Table.ext_get? (H .style)
  have : vars = vars' := Table.ext_get? (H .var)
  subst_vars
  rfl

theorem var_put (site : Site) {place : Place} (hplace : place ≠ .var) (name text : String) :
    (site.put place name text).var = site.var := by
  cases place with
  | template | style => rfl
  | var => exact absurd rfl hplace

/-- Put texts under names, one after the other. -/
def putEach (site : Site) (place : Place) (texts : List (String × String)) : Site :=
  texts.foldl (fun site (name, text) => site.put place name text) site

variable (site : Site) (place : Place) (texts : List (String × String))

theorem kind_putEach : (site.putEach place texts).templates.kind = site.templates.kind ∧
    (site.putEach place texts).styles.kind = site.styles.kind := by
  induction texts generalizing site with
  | nil => exact ⟨rfl, rfl⟩
  | cons first texts ih =>
    obtain ⟨htemplates, hstyles⟩ := ih (site.put place first.1 first.2)
    obtain ⟨htemplates', hstyles'⟩ := site.kind_put place first.1 first.2
    exact ⟨htemplates.trans htemplates', hstyles.trans hstyles'⟩

/-- Of the texts put under one name the last one is found. -/
theorem lookup_putEach (place' : Place) (name : String) :
    (site.putEach place texts).lookup place' name =
      if place' = place then (texts.reverse.lookup name).or (site.lookup place' name)
      else site.lookup place' name := by
  induction texts generalizing site with
  | nil => simp [putEach]
  | cons first texts ih =>
    have hrest := ih (site.put place first.1 first.2)
    rw [lookup_put] at hrest
    refine hrest.trans ?_
    rw [reverse_cons, lookup_append, lookup_entry_cons first.1 first.2]
    by_cases hplace : place' = place <;> by_cases hname : name = first.1 <;>
      simp [hplace, hname]

end Site

namespace Manifest

/-! ## Texts of entries -/

/-- The text of the file at a path as a template: as it is if the path has the extension `ejs`, and
otherwise the markup of the document in it. -/
inductive TemplateText (read : Reading) (path : String) : String → Prop
  | verbatim : Path.extension? path = some "ejs" → read path = .ok text →
    TemplateText read path text
  | pressed : Path.extension? path ≠ some "ejs" → read path = .ok source →
    Datum.readDocument source = .ok d → d.markup = .ok text → TemplateText read path text

/-- The style sheet of the document in the file at a path. -/
def StyleText (read : Reading) (vars : Bindings) (path text : String) : Prop :=
  ∃ source d, read path = .ok source ∧ Datum.readDocument source = .ok d ∧ d.style vars = .ok text

/-- The entry is one of the entries, and no later one has its name. -/
def LastNamed (entries : List SourceEntry) (entry : SourceEntry) : Prop :=
  ∃ before after, entries = before ++ entry :: after ∧ ∀ later ∈ after, later.name ≠ entry.name

/-- The text of a template, or why there is none. -/
def templateText (read : Reading) (path : String) : Except ManifestError String :=
  if Path.extension? path = some "ejs" then readFile read path
  else do (← readSource read path).markup.mapError fun e => .registry (.malformed e)

/-- The text of a style sheet, or why there is none. -/
def styleText (read : Reading) (vars : Bindings) (path : String) : Except ManifestError String := do
  ((← readSource read path).style vars).mapError fun e => .registry (.malformed e)

section
variable {read : Reading} {vars : Bindings} {base path text : String} {d : Datum}

theorem readSource_eq_ok_iff : readSource read path = .ok d ↔
    ∃ source, read path = .ok source ∧ Datum.readDocument source = .ok d := by
  simp only [readSource, readFile, bind_eq_ok_iff, mapError_eq_ok_iff]

theorem templateText_eq_ok_iff :
    templateText read path = .ok text ↔ TemplateText read path text := by
  unfold templateText
  split
  · next hejs =>
    rw [readFile, mapError_eq_ok_iff]
    refine ⟨.verbatim hejs, fun H => ?_⟩
    cases H with
    | verbatim _ hread => exact hread
    | pressed hother => exact absurd hejs hother
  · next hother =>
    simp only [bind_eq_ok_iff, mapError_eq_ok_iff, readSource_eq_ok_iff]
    constructor
    · rintro ⟨d, ⟨source, hread, hsource⟩, hmarkup⟩
      exact .pressed hother hread hsource hmarkup
    · intro H
      cases H with
      | verbatim hejs => exact absurd hejs hother
      | pressed _ hread hsource hmarkup => exact ⟨_, ⟨_, hread, hsource⟩, hmarkup⟩

/-- The text of a file that is joined to a base, by its name: a file `stem.ejs` is a template as it
is, and every other one is pressed. -/
theorem templateText_join_iff {name : String} (hname : Path.IsFileName name) :
    TemplateText read (Path.join base name) text ↔
      (∃ stem, stem ≠ "" ∧ name = stem ++ ".ejs") ∧ read (Path.join base name) = .ok text ∨
      (¬∃ stem, stem ≠ "" ∧ name = stem ++ ".ejs") ∧ ∃ source d,
        read (Path.join base name) = .ok source ∧ Datum.readDocument source = .ok d ∧
          d.markup = .ok text := by
  have hejs : (∃ stem, stem ≠ "" ∧ name = stem ++ ".ejs") ↔
      Path.extension? (Path.join base name) = some "ejs" := by
    have hdot : '.' ∉ "ejs".toList := by simp
    have hending : "." ++ "ejs" = ".ejs" := rfl
    simp only [Path.extension?_join_iff base hname, hdot, not_false_eq_true, true_and,
      String.append_assoc, hending]
  rw [hejs]
  constructor
  · rintro (⟨h, hread⟩ | ⟨h, hread, hsource, hmarkup⟩)
    · exact .inl ⟨h, hread⟩
    · exact .inr ⟨h, _, _, hread, hsource, hmarkup⟩
  · rintro (⟨h, hread⟩ | ⟨h, source, d, hread, hsource, hmarkup⟩)
    · exact .verbatim h hread
    · exact .pressed h hread hsource hmarkup

theorem styleText_eq_ok_iff :
    styleText read vars path = .ok text ↔ StyleText read vars path text := by
  simp only [styleText, bind_eq_ok_iff, mapError_eq_ok_iff, readSource_eq_ok_iff, StyleText]
  constructor
  · rintro ⟨d, ⟨source, hread, hsource⟩, hstyle⟩
    exact ⟨source, d, hread, hsource, hstyle⟩
  · rintro ⟨source, d, hread, hsource, hstyle⟩
    exact ⟨d, ⟨source, hread, hsource⟩, hstyle⟩

/-- The error of a text that cannot be pressed goes through the registry. -/
theorem register_eq (text : Except StructureError String) (put : String → Site) (name : String) :
    ((do pure (put (← text.mapError RegistryError.malformed), name)).mapError
      ManifestError.registry >>= fun result => pure result.1) =
      put <$> text.mapError fun e => .registry (.malformed e) := by
  cases text <;> rfl

variable (site : Site) (entry : SourceEntry)

theorem loadTemplate_eq : loadTemplate read base site entry =
    site.put .template entry.name <$> templateText read (Path.join base entry.source) := by
  simp only [loadTemplate, templateText]
  split
  · cases readFile read (Path.join base entry.source) <;> rfl
  · cases readSource read (Path.join base entry.source) with
    | error e => rfl
    | ok d => exact register_eq d.markup (site.put .template entry.name) entry.name

theorem loadStyle_eq : loadStyle read base site entry =
    site.put .style entry.name <$> styleText read site.var (Path.join base entry.source) := by
  simp only [loadStyle, styleText]
  cases readSource read (Path.join base entry.source) with
  | error e => rfl
  | ok d => exact register_eq (d.style site.var) (site.put .style entry.name) entry.name

end

/-! ## Loading entries -/

/-- The pairs are the names of the entries with their texts. -/
def Texts (text : SourceEntry → Except ManifestError String) (entries : List SourceEntry)
    (pairs : List (String × String)) : Prop :=
  Forall₂ (fun entry pair => pair.1 = entry.name ∧ text entry = .ok pair.2) entries pairs

section
variable {load : Site → SourceEntry → Except ManifestError Site} {place : Site.Place}
  {text : SourceEntry → Except ManifestError String} {vars : Bindings} {site site' : Site}
  {entries : List SourceEntry} {pairs : List (String × String)}

/-- Entries are loaded when all have a text, and then each text was put in its place. The texts may
depend on the variables, since these do not change. -/
theorem loadEach_eq_ok_iff (hplace : place ≠ .var)
    (hload : ∀ site, site.var = vars →
      ∀ entry, load site entry = site.put place entry.name <$> text entry)
    (hsite : site.var = vars) : loadEach load site entries = (site', .ok ()) ↔
      ∃ pairs, Texts text entries pairs ∧ site' = site.putEach place pairs := by
  induction entries generalizing site with
  | nil => simp [loadEach, Texts, Site.putEach, eq_comm]
  | cons entry entries ih =>
    rw [loadEach, hload site hsite entry]
    simp only [Texts, forall₂_cons_left_iff]
    cases htext : text entry with
    | error e => simp
    | ok t =>
      have hput : (site.put place entry.name t).var = vars := by
        rw [site.var_put hplace, hsite]
      refine (ih hput).trans ⟨?_, ?_⟩
      · rintro ⟨pairs, hpairs, rfl⟩
        exact ⟨_, ⟨(entry.name, t), pairs, ⟨rfl, rfl⟩, hpairs, rfl⟩, rfl⟩
      · rintro ⟨_, ⟨⟨_, _⟩, pairs, ⟨rfl, heq⟩, hpairs, rfl⟩, rfl⟩
        cases heq
        exact ⟨pairs, hpairs, rfl⟩

theorem exists_texts_iff (entries : List SourceEntry)
    (text : SourceEntry → Except ManifestError String) :
    (∃ pairs, Texts text entries pairs) ↔ ∀ entry ∈ entries, ∃ t, text entry = .ok t := by
  induction entries with
  | nil => exact ⟨fun _ => by simp, fun _ => ⟨[], .nil⟩⟩
  | cons entry entries ih =>
    rw [forall_mem_cons, ← ih]
    constructor
    · rintro ⟨_, H⟩
      obtain ⟨pair, pairs, ⟨-, ht⟩, hpairs, -⟩ := forall₂_cons_left_iff.1 H
      exact ⟨⟨pair.2, ht⟩, pairs, hpairs⟩
    · rintro ⟨⟨t, ht⟩, pairs, hpairs⟩
      exact ⟨(entry.name, t) :: pairs, .cons ⟨rfl, ht⟩ hpairs⟩

theorem Texts.lookup_eq_none (H : Texts text entries pairs) {name : String}
    (hname : ∀ entry ∈ entries, entry.name ≠ name) : pairs.reverse.lookup name = none := by
  induction H with
  | nil => rfl
  | @cons entry pair _ _ hpair _ ih =>
    rw [forall_mem_cons] at hname
    rw [reverse_cons, lookup_append, ih hname.2, lookup_entry_cons pair.1 pair.2, hpair.1,
      if_neg (Ne.symm hname.1)]
    rfl

theorem Texts.exists_entry (H : Texts text entries pairs) {name t : String}
    (hlookup : pairs.reverse.lookup name = some t) : ∃ entry ∈ entries, entry.name = name := by
  by_contra hnone
  have hname : ∀ entry ∈ entries, entry.name ≠ name :=
    fun entry hentry heq => hnone ⟨entry, hentry, heq⟩
  rw [H.lookup_eq_none hname] at hlookup
  cases hlookup

theorem Texts.lookup_last (H : Texts text entries pairs) {entry : SourceEntry}
    (hlast : LastNamed entries entry) :
    ∃ t, text entry = .ok t ∧ pairs.reverse.lookup entry.name = some t := by
  obtain ⟨before, after, rfl, hafter⟩ := hlast
  induction before generalizing pairs with
  | nil =>
    obtain ⟨⟨name, t⟩, rest, ⟨rfl, ht⟩, hrest, rfl⟩ := forall₂_cons_left_iff.1 H
    refine ⟨t, ht, ?_⟩
    rw [reverse_cons, lookup_append, Texts.lookup_eq_none hrest hafter, lookup_entry_cons,
      if_pos rfl]
    rfl
  | cons first before ih =>
    obtain ⟨pair, rest, -, hrest, rfl⟩ := forall₂_cons_left_iff.1 H
    obtain ⟨t, ht, hlookup⟩ := ih hrest
    refine ⟨t, ht, ?_⟩
    rw [reverse_cons, lookup_append, hlookup]
    rfl

end

/-! ## Loading a manifest -/

/-- The site with the variables of a manifest and the texts of its entries. -/
def update (manifest : Manifest) (templates styles : List (String × String)) (site : Site) : Site :=
  ((manifest.defineVars site).putEach .template templates).putEach .style styles

/-- What such an update puts under a name. -/
def given (manifest : Manifest) (templates styles : List (String × String)) (place : Site.Place)
    (name : String) : Option String :=
  match place with
  | .template => templates.reverse.lookup name
  | .style => styles.reverse.lookup name
  | .var => manifest.vars.get? name

section
variable (manifest : Manifest) (templates styles : List (String × String)) (site : Site)

theorem lookup_update (place : Site.Place) (name : String) :
    (manifest.update templates styles site).lookup place name =
      (manifest.given templates styles place name).or (site.lookup place name) := by
  rw [update, Site.lookup_putEach, Site.lookup_putEach]
  cases place with
  | template | style => rfl
  | var => exact Table.get?_insertAll manifest.vars.sorted site.vars name

theorem kind_update :
    (manifest.update templates styles site).templates.kind = site.templates.kind ∧
      (manifest.update templates styles site).styles.kind = site.styles.kind := by
  obtain ⟨htemplates, hstyles⟩ := (manifest.defineVars site).kind_putEach .template templates
  obtain ⟨htemplates', hstyles'⟩ :=
    ((manifest.defineVars site).putEach .template templates).kind_putEach .style styles
  exact ⟨htemplates'.trans htemplates, hstyles'.trans hstyles⟩

theorem var_update :
    (manifest.update templates styles site).var = (manifest.defineVars site).var := by
  funext name
  exact (manifest.lookup_update templates styles site .var name).trans
    (Table.get?_insertAll manifest.vars.sorted site.vars name).symm

/-- The same update a second time changes nothing. -/
theorem update_update : manifest.update templates styles (manifest.update templates styles site) =
    manifest.update templates styles site := by
  obtain ⟨htemplates, hstyles⟩ :=
    manifest.kind_update templates styles (manifest.update templates styles site)
  refine Site.ext_lookup htemplates hstyles fun place name => ?_
  rw [lookup_update, lookup_update, ← Option.or_assoc, Option.or_self]

end

section
variable {read : Reading} {base : String} {manifest : Manifest} {site site' : Site}
  {entries : List SourceEntry}

theorem loadTemplates_eq_ok_iff :
    loadEach (loadTemplate read base) site entries = (site', .ok ()) ↔
      ∃ pairs, Texts (fun entry => templateText read (Path.join base entry.source)) entries pairs ∧
        site' = site.putEach .template pairs :=
  loadEach_eq_ok_iff (by simp) (fun site _ entry => loadTemplate_eq site entry) rfl

theorem loadStyles_eq_ok_iff :
    loadEach (loadStyle read base) site entries = (site', .ok ()) ↔
      ∃ pairs, Texts (fun entry => styleText read site.var (Path.join base entry.source)) entries
        pairs ∧ site' = site.putEach .style pairs := by
  refine loadEach_eq_ok_iff (by simp) (fun mid hmid entry => ?_) rfl
  rw [loadStyle_eq, hmid]

theorem load_stages : manifest.load read base site = (site', .ok ()) ↔
    ∃ mid, loadEach (loadTemplate read base) (manifest.defineVars site) manifest.templates =
        (mid, .ok ()) ∧
      loadEach (loadStyle read base) mid manifest.styles = (site', .ok ()) := by
  rw [load]
  rcases loadEach (loadTemplate read base) _ manifest.templates with ⟨mid, _ | ⟨⟩⟩ <;> simp

/-- A manifest is loaded when all its entries have a text. -/
theorem load_eq_ok_iff : manifest.load read base site = (site', .ok ()) ↔
    ∃ templates styles,
      Texts (fun entry => templateText read (Path.join base entry.source)) manifest.templates
        templates ∧
      Texts (fun entry => styleText read (manifest.defineVars site).var
        (Path.join base entry.source)) manifest.styles styles ∧
      site' = manifest.update templates styles site := by
  have hvars (templates : List (String × String)) :
      ((manifest.defineVars site).putEach .template templates).var =
        (manifest.defineVars site).var := manifest.var_update templates [] site
  simp only [load_stages, loadTemplates_eq_ok_iff, loadStyles_eq_ok_iff]
  constructor
  · rintro ⟨_, ⟨templates, htemplates, rfl⟩, styles, hstyles, rfl⟩
    rw [hvars] at hstyles
    exact ⟨templates, styles, htemplates, hstyles, rfl⟩
  · rintro ⟨templates, styles, htemplates, hstyles, rfl⟩
    refine ⟨_, ⟨templates, htemplates, rfl⟩, styles, ?_, rfl⟩
    rwa [hvars]

/-- After a load that succeeds, the variables of the manifest have their values there, a name has
the text of the last template and of the last style sheet with this name, the latter pressed with
the variables as they are now, and everything else is as it was. To load once more changes
nothing. -/
theorem load_keeps_last_entries (H : manifest.load read base site = (site', .ok ())) :
    (∀ name, site'.var name = (manifest.vars.get? name).or (site.var name)) ∧
    (∀ entry, LastNamed manifest.templates entry →
      ∃ text, TemplateText read (Path.join base entry.source) text ∧
        site'.template entry.name = .ok text) ∧
    (∀ name, (∀ entry ∈ manifest.templates, entry.name ≠ name) →
      site'.template name = site.template name) ∧
    (∀ entry, LastNamed manifest.styles entry →
      ∃ text, StyleText read site'.var (Path.join base entry.source) text ∧
        site'.style entry.name = .ok text) ∧
    (∀ name, (∀ entry ∈ manifest.styles, entry.name ≠ name) →
      site'.style name = site.style name) ∧
    manifest.load read base site' = (site', .ok ()) := by
  obtain ⟨templates, styles, htemplates, hstyles, rfl⟩ := load_eq_ok_iff.1 H
  have hlookup := manifest.lookup_update templates styles site
  have hvars := manifest.var_update templates styles site
  obtain ⟨hkind, hkind'⟩ := manifest.kind_update templates styles site
  refine ⟨hlookup .var, fun entry hentry => ?_, fun name hname => ?_, fun entry hentry => ?_,
    fun name hname => ?_, ?_⟩
  · obtain ⟨text, htext, hlast⟩ := htemplates.lookup_last hentry
    refine ⟨text, templateText_eq_ok_iff.1 htext, Registry.get_eq_ok_iff.2 ?_⟩
    refine (hlookup .template entry.name).trans ?_
    rw [given, hlast, Option.some_or]
  · refine Registry.get_congr hkind ((hlookup .template name).trans ?_)
    rw [given, htemplates.lookup_eq_none hname, Option.none_or, Site.lookup]
  · obtain ⟨text, htext, hlast⟩ := hstyles.lookup_last hentry
    rw [hvars]
    refine ⟨text, styleText_eq_ok_iff.1 htext, Registry.get_eq_ok_iff.2 ?_⟩
    refine (hlookup .style entry.name).trans ?_
    rw [given, hlast, Option.some_or]
  · refine Registry.get_congr hkind' ((hlookup .style name).trans ?_)
    rw [given, hstyles.lookup_eq_none hname, Option.none_or, Site.lookup]
  · refine load_eq_ok_iff.2 ⟨templates, styles, htemplates, ?_, ?_⟩
    · rwa [← manifest.var_update templates styles, update_update, hvars]
    · exact (manifest.update_update templates styles site).symm

/-- Two templates and two style sheets with one name each, loaded into a site that has the variable
of the manifest and another template. -/
theorem load_keeps_last_entries_repeated :
    let texts := [("site/a.ejs", "<%= x %>"), ("site/b", "'(p ($ \"a<b\"))"),
      ("site/s", "((p (color \"var(main)\")))")]
    let read : Reading := fun path => (texts.lookup path).elim (.error .notFound) .ok
    let templates : List SourceEntry := [⟨"page", "a.ejs"⟩, ⟨"page", "b"⟩, ⟨"raw", "a.ejs"⟩]
    let styles : List SourceEntry := [⟨"main", "s"⟩, ⟨"main", "s"⟩]
    let manifest : Manifest := ⟨"dist", .ofList [("main", "red")], templates, styles⟩
    let site := (Site.empty.put .template "old" "<hr />").put .var "main" "blue"
    let loaded := (manifest.load read "site" site).1
    loaded.var "main" = some "red" ∧
      TemplateText read (Path.join "site" "b") "<p>a&lt;b</p>" ∧
      loaded.template "page" = .ok "<p>a&lt;b</p>" ∧
      read (Path.join "site" "a.ejs") = .ok "<%= x %>" ∧
      loaded.template "raw" = .ok "<%= x %>" ∧
      loaded.template "old" = .ok "<hr />" ∧
      StyleText read loaded.var (Path.join "site" "s") "p \x7b\n  color: red;\n\x7d\n" ∧
      loaded.style "main" = .ok "p \x7b\n  color: red;\n\x7d\n" ∧
      manifest.load read "site" loaded = (loaded, .ok ()) := by
  intro texts read templates styles manifest site loaded
  have H : manifest.load read "site" site = (loaded, .ok ()) := Prod.ext rfl (by decide +kernel)
  obtain ⟨hvars, htemplates, hothers, hstyles, -, hagain⟩ := load_keeps_last_entries H
  have hpage : loaded.template "page" = .ok "<p>a&lt;b</p>" := by decide +kernel
  have hmain : loaded.style "main" = .ok "p \x7b\n  color: red;\n\x7d\n" := by decide +kernel
  obtain ⟨text, htext, hlast⟩ := htemplates ⟨"page", "b"⟩
    ⟨[⟨"page", "a.ejs"⟩], [⟨"raw", "a.ejs"⟩], rfl, by simp⟩
  obtain ⟨raw, hraw, hlast'⟩ := htemplates ⟨"raw", "a.ejs"⟩
    ⟨[⟨"page", "a.ejs"⟩, ⟨"page", "b"⟩], [], rfl, by simp⟩
  obtain ⟨css, hcss, hlast''⟩ := hstyles ⟨"main", "s"⟩ ⟨[⟨"main", "s"⟩], [], rfl, by simp⟩
  cases hpage.symm.trans hlast
  cases hmain.symm.trans hlast''
  -- the name of the file decides that it is taken as it is
  have hname : Path.IsFileName ("a" ++ ".ejs") :=
    Path.isFileName_append (by simp) (by simp) (by decide)
  have hverbatim := (templateText_join_iff hname).1 hraw
  have hread : read (Path.join "site" "a.ejs") = .ok raw := by
    rcases hverbatim with ⟨-, hread⟩ | ⟨hother, -⟩
    · exact hread
    · exact absurd ⟨"a", by simp, rfl⟩ hother
  cases hread
  exact ⟨(hvars "main").trans (by decide +kernel), htext, hpage, rfl, hlast',
    hothers "old" (by simp [manifest, templates]), hcss, hmain, hagain⟩

end
end Manifest
end ListPress
