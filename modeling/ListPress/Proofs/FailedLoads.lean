import ListPress.Proofs.ManifestLoading
import ListPress.Proofs.ReadResults

/-! # Loads that fail

The two loops of a load are one loop over the templates and then the style sheets
(`Manifest.load_eq_loadEach`). So a load that fails stops at the first entry that fails on the site
made so far, and leaves this site (`Manifest.load_stops_at_first_failure`). Documents are never
nested too deep to be pressed, since the reader does not go as deep
(`Datum.Formed.eq_chainTooLong`). -/

namespace ListPress
open List

/-! ## Documents -/

namespace Datum
variable {text : String} {d : Datum} {e : StructureError}

theorem formed_of_readDocument (H : readDocument text = .ok d) : d.Formed 0 := by
  obtain ⟨whole, hwhole, H⟩ := bind_eq_ok_iff.1 H
  have hformed := formed_of_read hwhole
  split at H
  · next inner =>
    cases H
    have hinner : d ∈ (Datum.list [.atom (.symbol "quote"), d]).items := by simp [items]
    exact (hformed.item hinner).mono (Nat.zero_le 1)
  · cases H
    exact hformed

theorem markup_eq_error (H : readDocument text = .ok d) (hfail : d.markup = .error e) :
    e = .chainTooLong :=
  (formed_of_readDocument H).eq_chainTooLong (Heap.empty.store_unfolds d)
    (Heap.cause_of_markupAt hfail)

theorem style_eq_error {vars : Bindings} (H : readDocument text = .ok d)
    (hfail : d.style vars = .error e) : e = .chainTooLong :=
  (formed_of_readDocument H).eq_chainTooLong (Heap.empty.store_unfolds d)
    (Heap.cause_of_style hfail)

end Datum

namespace Manifest

/-! ## Entries in the order they are loaded -/

inductive Kind where
  | template
  | style

/-- Load an entry of either kind. -/
def loadEntry (read : Reading) (base : String) (site : Site) (item : Kind × SourceEntry) :
    Except ManifestError Site :=
  match item.1 with
  | .template => loadTemplate read base site item.2
  | .style => loadStyle read base site item.2

/-- All entries in the order they are loaded in. -/
def order (manifest : Manifest) : List (Kind × SourceEntry) :=
  manifest.templates.map (Kind.template, ·) ++ manifest.styles.map (Kind.style, ·)

/-- The manifest without its entries from index `n` on, in the order they are loaded in. -/
def cut (manifest : Manifest) (n : Nat) : Manifest :=
  { manifest with
    templates := manifest.templates.take n
    styles := manifest.styles.take (n - manifest.templates.length) }

/-- The entry at index `n` fails on the site that the entries before it make of `site`. -/
structure FailsAt (read : Reading) (base : String) (manifest : Manifest) (site : Site) (n : Nat)
    (item : Kind × SourceEntry) (built : Site) (e : ManifestError) : Prop where
  entry : manifest.order[n]? = some item
  before : (manifest.cut n).load read base site = (built, .ok ())
  fails : loadEntry read base built item = .error e

/-- Why a source fails: its file cannot be read, or is no document, or has too long a chain. -/
inductive SourceFailure (read : Reading) (path : String) : ManifestError → Prop
  | file : read path = .error error → SourceFailure read path (.file path error)
  | source : read path = .ok text → Datum.readDocument text = .error error →
    SourceFailure read path (.source path error)
  | chain : read path = .ok text → Datum.readDocument text = .ok d →
    SourceFailure read path (.registry (.malformed .chainTooLong))

theorem order_cut (manifest : Manifest) (n : Nat) :
    (manifest.cut n).order = manifest.order.take n := by
  simp [order, cut, take_append, map_take]

/-! ## Failures of one entry -/

section
variable {read : Reading} {vars : Bindings} {base path : String} {e : ManifestError}

theorem SourceFailure.of_readFile (H : readFile read path = .error e) :
    SourceFailure read path e := by
  obtain ⟨error, hread, rfl⟩ := mapError_eq_error_iff.1 H
  exact .file hread

theorem SourceFailure.of_readSource (H : readSource read path = .error e) :
    SourceFailure read path e := by
  obtain hfile | ⟨text, hfile, H⟩ := bind_eq_error_iff.1 H
  · exact .of_readFile hfile
  · obtain ⟨error, hsource, rfl⟩ := mapError_eq_error_iff.1 H
    exact .source (mapError_eq_ok_iff.1 hfile) hsource

/-- A document that was read fails to be pressed only at a chain. -/
theorem SourceFailure.of_press {press : Datum → Except StructureError String}
    (hpress : ∀ text d e, Datum.readDocument text = .ok d → press d = .error e → e = .chainTooLong)
    (H : (do (press (← readSource read path)).mapError fun e => .registry (.malformed e)) =
      .error e) : SourceFailure read path e := by
  obtain hsource | ⟨d, hsource, H⟩ := bind_eq_error_iff.1 H
  · exact .of_readSource hsource
  · obtain ⟨text, hread, hdocument⟩ := readSource_eq_ok_iff.1 hsource
    obtain ⟨error, hfail, rfl⟩ := mapError_eq_error_iff.1 H
    rw [hpress text d error hdocument hfail]
    exact .chain hread hdocument

theorem SourceFailure.of_loadEntry {site : Site} {item : Kind × SourceEntry}
    (H : loadEntry read base site item = .error e) :
    SourceFailure read (Path.join base item.2.source) e := by
  obtain ⟨kind, entry⟩ := item
  cases kind with
  | template =>
    rw [loadEntry, loadTemplate_eq, map_eq_error_iff, templateText] at H
    split at H
    · exact .of_readFile H
    · exact .of_press (fun text d e => Datum.markup_eq_error) H
  | style =>
    rw [loadEntry, loadStyle_eq, map_eq_error_iff] at H
    exact .of_press (fun text d e => Datum.style_eq_error) H

end

/-! ## Loops -/

section
variable {load : Site → α → Except ManifestError Site} {site mid site' : Site} {xs ys : List α}
  {e : ManifestError}

theorem loadEach_append : loadEach load site (xs ++ ys) =
    match loadEach load site xs with
    | (mid, .ok ()) => loadEach load mid ys
    | failed => failed := by
  induction xs generalizing site with
  | nil => rfl
  | cons x xs ih =>
    rw [cons_append, loadEach, loadEach]
    cases load site x with
    | error e => rfl
    | ok next => exact ih

theorem loadEach_map {f : β → α} (zs : List β) :
    loadEach load site (zs.map f) = loadEach (fun site z => load site (f z)) site zs := by
  induction zs generalizing site with
  | nil => rfl
  | cons z zs ih =>
    rw [map_cons, loadEach, loadEach]
    cases load site (f z) with
    | error e => rfl
    | ok next => exact ih

/-- A loop fails at the first entry that fails, and leaves what the entries before it made. -/
theorem loadEach_eq_error_iff : loadEach load site xs = (site', .error e) ↔
    ∃ n x, xs[n]? = some x ∧ loadEach load site (xs.take n) = (site', .ok ()) ∧
      load site' x = .error e := by
  induction xs generalizing site with
  | nil => simp [loadEach]
  | cons x xs ih =>
    rw [loadEach]
    cases hx : load site x with
    | error e' =>
      constructor
      · intro H
        cases H
        exact ⟨0, x, rfl, rfl, hx⟩
      · rintro ⟨n, y, hy, hbefore, hfails⟩
        cases n with
        | zero =>
          cases hy
          cases hbefore
          cases hx.symm.trans hfails
          rfl
        | succ n =>
          rw [take_succ_cons, loadEach, hx] at hbefore
          cases hbefore
    | ok next =>
      refine ih.trans ⟨?_, ?_⟩
      · rintro ⟨n, y, hy, hbefore, hfails⟩
        refine ⟨n + 1, y, hy, ?_, hfails⟩
        rw [take_succ_cons, loadEach, hx]
        exact hbefore
      · rintro ⟨n, y, hy, hbefore, hfails⟩
        cases n with
        | zero =>
          cases hy
          cases hbefore
          cases hx.symm.trans hfails
        | succ n =>
          rw [take_succ_cons, loadEach, hx] at hbefore
          exact ⟨n, y, hy, hbefore, hfails⟩

end

/-! ## Loads -/

section
variable {read : Reading} {base : String} {manifest : Manifest} {site site' : Site} {n : Nat}
  {item : Kind × SourceEntry} {e : ManifestError}

/-- Both loops of a load are one. -/
theorem load_eq_loadEach (read : Reading) (base : String) (manifest : Manifest) (site : Site) :
    manifest.load read base site =
      loadEach (loadEntry read base) (manifest.defineVars site) manifest.order := by
  rw [load, order, loadEach_append, loadEach_map]
  simp only [loadEach_map]
  rfl

theorem load_cut : (manifest.cut n).load read base site =
    loadEach (loadEntry read base) (manifest.defineVars site) (manifest.order.take n) := by
  rw [load_eq_loadEach, order_cut]
  rfl

theorem load_eq_error_iff : manifest.load read base site = (site', .error e) ↔
    ∃ n item, FailsAt read base manifest site n item site' e := by
  rw [load_eq_loadEach, loadEach_eq_error_iff]
  constructor
  · rintro ⟨n, item, hitem, hbefore, hfails⟩
    exact ⟨n, item, hitem, load_cut.trans hbefore, hfails⟩
  · rintro ⟨n, item, H⟩
    exact ⟨n, item, H.entry, load_cut.symm.trans H.before, H.fails⟩

/-- Of the entries before one that is reached, none fails. -/
theorem FailsAt.first {built : Site} {e : ManifestError}
    (H : FailsAt read base manifest site n item built e) {i : Nat} (hi : i < n)
    (item' : Kind × SourceEntry) (built' : Site) (e' : ManifestError) :
    ¬ FailsAt read base manifest site i item' built' e' := by
  intro H'
  have hreached := load_cut.symm.trans H.before
  have hfails : loadEach (loadEntry read base) (manifest.defineVars site) (manifest.order.take n) =
      (built', .error e') := by
    refine loadEach_eq_error_iff.2 ⟨i, item', ?_, ?_, H'.fails⟩
    · rw [getElem?_take_of_lt hi, H'.entry]
    · rw [take_take, Nat.min_eq_left (Nat.le_of_lt hi)]
      exact load_cut.symm.trans H'.before
  cases hreached.symm.trans hfails

theorem FailsAt.var_eq (H : FailsAt read base manifest site n item site' e) (name : String) :
    site'.var name = (manifest.vars.get? name).or (site.var name) := by
  obtain ⟨templates, styles, -, -, rfl⟩ := load_eq_ok_iff.1 H.before
  exact (manifest.cut n).lookup_update templates styles site .var name

theorem cut_styles_eq_nil (hitem : manifest.order[n]? = some item) (hkind : item.1 = .template) :
    (manifest.cut n).styles = [] := by
  rcases Nat.lt_or_ge n manifest.templates.length with hn | hn
  · rw [cut, Nat.sub_eq_zero_of_le (Nat.le_of_lt hn), take_zero]
  · rw [order, getElem?_append_right (by rwa [length_map]), getElem?_map] at hitem
    obtain ⟨entry, -, rfl⟩ := Option.map_eq_some_iff.1 hitem
    cases hkind

/-- When a template fails, no style sheet has been loaded. -/
theorem FailsAt.style_eq (H : FailsAt read base manifest site n item site' e)
    (hkind : item.1 = .template) (name : String) : site'.style name = site.style name := by
  obtain ⟨templates, styles, -, hstyles, rfl⟩ := load_eq_ok_iff.1 H.before
  rw [cut_styles_eq_nil H.entry hkind] at hstyles
  cases hstyles
  refine Registry.get_congr ((manifest.cut n).kind_update templates [] site).2 ?_
  exact (manifest.cut n).lookup_update templates [] site .style name

/-- A load that fails stops at the first entry, templates before style sheets, that fails on the
site made so far. It leaves the site that the manifest would make without this entry and those after
it: all variables are defined, and if it was a template, there is no new style sheet. The error tells
that the file of the entry cannot be read, or is no document, or that a chain is too long. -/
theorem load_stops_at_first_failure (H : manifest.load read base site = (site', .error e)) :
    ∃ n item, FailsAt read base manifest site n item site' e ∧
      (∀ i < n, ∀ item' built e', ¬ FailsAt read base manifest site i item' built e') ∧
      (∀ name, site'.var name = (manifest.vars.get? name).or (site.var name)) ∧
      (item.1 = .template → ∀ name, site'.style name = site.style name) ∧
      SourceFailure read (Path.join base item.2.source) e := by
  obtain ⟨n, item, hfails⟩ := load_eq_error_iff.1 H
  exact ⟨n, item, hfails, fun i hi => hfails.first hi, hfails.var_eq, hfails.style_eq,
    .of_loadEntry hfails.fails⟩

/-- The second of three templates has no file; the first and the variable are there afterwards. -/
theorem load_stops_at_first_failure_missing :
    let read : Reading := fun path => if path = "site/a.ejs" then .ok "<hr />" else .error .notFound
    let templates : List SourceEntry := [⟨"page", "a.ejs"⟩, ⟨"page", "b"⟩, ⟨"raw", "a.ejs"⟩]
    let manifest : Manifest := ⟨"dist", .ofList [("main", "red")], templates, [⟨"main", "s"⟩]⟩
    let failed := manifest.load read "site" .empty
    failed.2 = .error (.file "site/b" .notFound) ∧ failed.1.template "page" = .ok "<hr />" ∧
      ∃ n item, FailsAt read "site" manifest .empty n item failed.1 (.file "site/b" .notFound) ∧
        failed.1.var "main" = some "red" := by
  intro read templates manifest failed
  have hfailed : failed.2 = .error (.file "site/b" .notFound) := by decide +kernel
  obtain ⟨n, item, hfails, -, hvars, -⟩ := load_stops_at_first_failure (Prod.ext rfl hfailed)
  exact ⟨hfailed, by decide +kernel, n, item, hfails, (hvars "main").trans (by decide +kernel)⟩

end
end Manifest
end ListPress
