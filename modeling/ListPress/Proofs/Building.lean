import ListPress.Command
import ListPress.Proofs.ManifestLoading
import ListPress.Proofs.Volumes

/-! # What a build writes

A build reads everything before it writes anything. So a source that fails leaves the volume as it
was, and otherwise each text of the site is in its file afterwards and no other file has changed,
whether or not the sources lie among the files that are written (`Volume.run_build`). -/

namespace ListPress
open List

/-! ## The files of a site -/

namespace Site

/-- The site has a text for the file of this name. -/
inductive Output (site : Site) : String → String → Prop
  | template : site.template name = .ok text → Output site (name ++ ".ejs") text
  | style : site.style name = .ok text → Output site (name ++ ".css") text

/-- The names of the files with their texts, in the order they are written. -/
def outputs (site : Site) : List (String × String) :=
  site.templates.texts.entries.map (fun entry => (entry.1 ++ ".ejs", entry.2)) ++
    site.styles.texts.entries.map (fun entry => (entry.1 ++ ".css", entry.2))

variable {site : Site}

theorem plan_files (dir : String) : (site.plan dir).files =
    site.outputs.map fun output => (Path.join dir output.1, output.2) := by
  simp only [plan, outputs, map_append, map_map]
  rfl

theorem mem_outputs_iff {file text : String} :
    (file, text) ∈ site.outputs ↔ site.Output file text := by
  simp only [outputs, mem_append, mem_map, Prod.mk.injEq]
  constructor
  · rintro (⟨entry, hentry, rfl, rfl⟩ | ⟨entry, hentry, rfl, rfl⟩)
    · exact .template (Registry.get_eq_ok_iff.2 (Table.get?_eq_some_iff.2 hentry))
    · exact .style (Registry.get_eq_ok_iff.2 (Table.get?_eq_some_iff.2 hentry))
  · intro H
    cases H with
    | template h => exact .inl ⟨_, Table.get?_eq_some_iff.1 (Registry.get_eq_ok_iff.1 h), rfl, rfl⟩
    | style h => exact .inr ⟨_, Table.get?_eq_some_iff.1 (Registry.get_eq_ok_iff.1 h), rfl, rfl⟩

theorem append_ejs_ne_append_css (name name' : String) : name ++ ".ejs" ≠ name' ++ ".css" := by
  intro heq
  have hchars := congrArg (·.toList.reverse) heq
  simp at hchars

/-- No two texts go to one file. -/
theorem outputs_pairwise (site : Site) : site.outputs.Pairwise (·.1 ≠ ·.1) := by
  have hmap (table : Table String) (ending : String) :
      (table.entries.map fun entry => (entry.1 ++ ending, entry.2)).Pairwise (·.1 ≠ ·.1) := by
    rw [pairwise_map]
    refine table.sorted.imp fun hlt heq => ?_
    exact Std.ne_of_lt hlt (String.append_left_inj ending |>.1 heq)
  refine pairwise_append.2 ⟨hmap _ ".ejs", hmap _ ".css", ?_⟩
  intro output hmem output' hmem'
  obtain ⟨entry, -, rfl⟩ := mem_map.1 hmem
  obtain ⟨entry', -, rfl⟩ := mem_map.1 hmem'
  exact append_ejs_ne_append_css entry.1 entry'.1

end Site

/-! ## Writing -/

namespace Volume
variable {volume after : Volume} {files : List (String × String)} {place : Place}

theorem writeEach_cons_eq_ok_iff {path text : String} :
    volume.writeEach ((path, text) :: files) = (after, .ok ()) ↔
      ∃ next, volume.writeText path text = .ok next ∧ next.writeEach files = (after, .ok ()) := by
  rw [writeEach]
  cases volume.writeText path text <;> simp

theorem keepsDirs_of_writeEach (H : volume.writeEach files = (after, .ok ())) :
    volume.KeepsDirs after := by
  induction files generalizing volume with
  | nil =>
    cases H
    exact fun _ hplace => hplace
  | cons first files ih =>
    obtain ⟨next, hwrite, hrest⟩ := writeEach_cons_eq_ok_iff.1 H
    obtain ⟨place, -, hplace, rfl⟩ := writeText_eq_ok_iff.1 hwrite
    exact (keepsDirs_put hplace _).trans (ih hrest)

/-- Only files that the paths lead to are written. -/
theorem file?_of_writeEach (H : volume.writeEach files = (after, .ok ()))
    (hother : ∀ file ∈ files, after.locate file.1 ≠ .ok place) :
    after.file? place = volume.file? place := by
  induction files generalizing volume with
  | nil =>
    cases H
    rfl
  | cons first files ih =>
    obtain ⟨hfirst, hother⟩ := forall_mem_cons.1 hother
    obtain ⟨next, hwrite, hrest⟩ := writeEach_cons_eq_ok_iff.1 H
    have hkeeps := keepsDirs_of_writeEach H
    obtain ⟨written, hlocate, hwritten, rfl⟩ := writeText_eq_ok_iff.1 hwrite
    rw [ih hrest hother, file?_put hwritten, if_neg]
    intro heq
    exact hfirst (heq ▸ locate_mono hkeeps hlocate)

/-- If no two paths lead to one place, every file has its text in the end. -/
theorem readText_of_writeEach (H : volume.writeEach files = (after, .ok ()))
    (hplaces : files.Pairwise fun file file' =>
      ∀ place, after.locate file.1 = .ok place → after.locate file'.1 ≠ .ok place) :
    ∀ file ∈ files, after.readText file.1 = .ok file.2 := by
  induction files generalizing volume with
  | nil => simp
  | cons first files ih =>
    obtain ⟨hfirst, hplaces⟩ := pairwise_cons.1 hplaces
    obtain ⟨next, hwrite, hrest⟩ := writeEach_cons_eq_ok_iff.1 H
    have hkeeps := keepsDirs_of_writeEach H
    obtain ⟨written, hlocate, hwritten, rfl⟩ := writeText_eq_ok_iff.1 hwrite
    have hlocate := locate_mono hkeeps hlocate
    -- The later files go to other places, so the first text is there still.
    refine forall_mem_cons.2 ⟨readText_of_file? hlocate ?_, ih hrest hplaces⟩
    rw [file?_of_writeEach hrest fun file hfile => hfirst file hfile written hlocate,
      file?_put hwritten, if_pos rfl]

theorem carryOut_eq_ok_iff {plan : Plan} : volume.carryOut plan = (after, .ok ()) ↔
    ∃ next, volume.makeDirs plan.directory = (next, .ok ()) ∧
      next.writeEach plan.files = (after, .ok ()) := by
  rw [carryOut]
  rcases volume.makeDirs plan.directory with ⟨next, _ | ⟨⟩⟩ <;> simp

end Volume

/-! ## Planning -/

namespace Manifest

/-- The file at a path holds this manifest, and all its entries have a text. -/
structure Loadable (read : Reading) (path : String) (manifest : Manifest) : Prop where
  file : ∃ source, read path = .ok source ∧ parse? source = some manifest
  templates : ∀ entry ∈ manifest.templates,
    ∃ text, TemplateText read (Path.join (baseOf path) entry.source) text
  styles : ∀ entry ∈ manifest.styles,
    ∃ text, StyleText read manifest.vars.get? (Path.join (baseOf path) entry.source) text

section
variable {read : Reading} {base path : String} {out : Option String} {manifest : Manifest}
  {site : Site} {plan : Plan}

theorem ofFile_eq_ok_iff : ofFile read path = .ok manifest ↔
    ∃ source, read path = .ok source ∧ parse? source = some manifest := by
  rw [ofFile, bind_eq_ok_iff]
  simp only [readFile, mapError_eq_ok_iff]
  refine exists_congr fun source => and_congr_right fun _ => ?_
  cases parse? source <;> simp [pure, Except.pure]

theorem var_defineVars_empty (manifest : Manifest) :
    (manifest.defineVars .empty).var = manifest.vars.get? := by
  funext name
  exact (Table.get?_insertAll manifest.vars.sorted _ name).trans Option.or_none

/-- All entries have a text just if the manifest can be loaded. -/
theorem loadable_iff : Loadable read path manifest ↔ ofFile read path = .ok manifest ∧
    ∃ site, manifest.load read (baseOf path) .empty = (site, .ok ()) := by
  have htemplates := exists_texts_iff manifest.templates fun entry =>
    templateText read (Path.join (baseOf path) entry.source)
  have hstyles := exists_texts_iff manifest.styles fun entry =>
    styleText read manifest.vars.get? (Path.join (baseOf path) entry.source)
  simp only [templateText_eq_ok_iff] at htemplates
  simp only [styleText_eq_ok_iff] at hstyles
  simp only [load_eq_ok_iff, var_defineVars_empty, ofFile_eq_ok_iff]
  constructor
  · intro H
    obtain ⟨templates, htemplates⟩ := htemplates.2 H.templates
    obtain ⟨styles, hstyles⟩ := hstyles.2 H.styles
    exact ⟨H.file, _, templates, styles, htemplates, hstyles, rfl⟩
  · rintro ⟨hfile, _, templates, styles, htexts, htexts', -⟩
    exact ⟨hfile, htemplates.1 ⟨templates, htexts⟩, hstyles.1 ⟨styles, htexts'⟩⟩

theorem plan_eq_ok_iff : Manifest.plan read path out = .ok plan ↔
    ∃ manifest site, ofFile read path = .ok manifest ∧
      manifest.load read (baseOf path) .empty = (site, .ok ()) ∧
      site.plan (out.getD (Path.join (baseOf path) manifest.outputDir)) = plan := by
  rw [Manifest.plan, bind_eq_ok_iff]
  refine exists_congr fun manifest => ?_
  dsimp only
  rcases manifest.load read (baseOf path) .empty with ⟨site, _ | ⟨⟩⟩ <;> simp [pure, Except.pure]

/-- The files of a site that was loaded are named after entries. -/
theorem exists_entry_of_output {file text : String}
    (hload : manifest.load read base .empty = (site, .ok ())) (H : site.Output file text) :
    ∃ entry ∈ manifest.templates ++ manifest.styles,
      file = entry.name ++ ".ejs" ∨ file = entry.name ++ ".css" := by
  obtain ⟨templates, styles, htemplates, hstyles, rfl⟩ := load_eq_ok_iff.1 hload
  -- The site was empty, so whatever is found was given.
  have hgiven (place : Site.Place) (name : String) :
      (manifest.update templates styles .empty).lookup place name =
        manifest.given templates styles place name := by
    rw [lookup_update]
    cases place <;> exact Option.or_none
  cases H with
  | @template name _ h =>
    have hfound := (hgiven .template name).symm.trans (Registry.get_eq_ok_iff.1 h)
    obtain ⟨entry, hentry, rfl⟩ := htemplates.exists_entry hfound
    exact ⟨entry, mem_append_left _ hentry, .inl rfl⟩
  | @style name _ h =>
    have hfound := (hgiven .style name).symm.trans (Registry.get_eq_ok_iff.1 h)
    obtain ⟨entry, hentry, rfl⟩ := hstyles.exists_entry hfound
    exact ⟨entry, mem_append_right _ hentry, .inr rfl⟩

theorem isFileName_of_output {file text : String}
    (hload : manifest.load read base .empty = (site, .ok ()))
    (hnames : ∀ entry ∈ manifest.templates ++ manifest.styles, '/' ∉ entry.name.toList)
    (H : site.Output file text) : Path.IsFileName file := by
  obtain ⟨entry, hentry, rfl | rfl⟩ := exists_entry_of_output hload H
  · exact Path.isFileName_append (hnames entry hentry) (by decide) (by decide)
  · exact Path.isFileName_append (hnames entry hentry) (by decide) (by decide)

end
end Manifest

/-! ## Builds -/

namespace Volume
variable {volume after : Volume} {stdin : ByteArray} {args : List String} {path dir : String}
  {out : Option String} {plan : Plan} {site : Site}

theorem run_of_plan_eq_error {e : ManifestError}
    (hargs : Command.parse args = .ok (.build path out))
    (hplan : Manifest.plan volume.readText path out = .error e) :
    volume.run stdin args = ⟨1, "", volume⟩ := by
  simp only [run, hargs, Command.run, hplan]
  rfl

theorem run_of_carryOut (hargs : Command.parse args = .ok (.build path out))
    (hplan : Manifest.plan volume.readText path out = .ok plan)
    (hwrite : volume.carryOut plan = (after, .ok ())) :
    volume.run stdin args = ⟨0, "", after⟩ := by
  have hrun (inputs : Command.Inputs) (hread : inputs.read = volume.readText) :
      (Command.build path out).run inputs = .ok (.write plan) := by
    rw [Command.run, hread, hplan]
    rfl
  simp only [run, hargs, hrun, hwrite]

/-- One volume is the other after the texts of a site were written into a directory: each text is in
its file, no other file has changed, and no directory is lost. -/
structure Written (volume after : Volume) (site : Site) (dir : String) : Prop where
  texts : ∀ file text, site.Output file text → after.readText (Path.join dir file) = .ok text
  others : ∀ place,
    (∀ file text, site.Output file text → after.locate (Path.join dir file) ≠ .ok place) →
    after.file? place = volume.file? place
  dirs : volume.KeepsDirs after

/-- File names that differ lead to places that differ. -/
theorem places_pairwise (volume : Volume) (dir : String)
    (hnames : ∀ file text, site.Output file text → Path.IsFileName file) :
    (site.plan dir).files.Pairwise fun file file' => ∀ place,
      volume.locate file.1 = .ok place → volume.locate file'.1 ≠ .ok place := by
  rw [Site.plan_files, pairwise_map]
  refine site.outputs_pairwise.imp_of_mem fun hmem hmem' hne place hlocate hlocate' => hne ?_
  -- Both names are the last component of the place.
  have hlast := getLast?_of_locate (hnames _ _ (Site.mem_outputs_iff.1 hmem)) hlocate
  have hlast' := getLast?_of_locate (hnames _ _ (Site.mem_outputs_iff.1 hmem')) hlocate'
  exact Option.some.inj (hlast.symm.trans hlast')

theorem written_of_carryOut (hnames : ∀ file text, site.Output file text → Path.IsFileName file)
    (H : volume.carryOut (site.plan dir) = (after, .ok ())) : Written volume after site dir := by
  obtain ⟨next, hdirs, hwrite⟩ := carryOut_eq_ok_iff.1 H
  have hadds := addsDirs_of_makeDirs hdirs
  have htexts := readText_of_writeEach hwrite (places_pairwise after dir hnames)
  rw [Site.plan_files] at hwrite
  rw [Site.plan_files, forall_mem_map] at htexts
  refine ⟨fun file text hfile => ?_, fun place hother => ?_, ?_⟩
  · exact htexts (file, text) (Site.mem_outputs_iff.2 hfile)
  · refine (file?_of_writeEach hwrite fun file hfile => ?_).trans (hadds.file?_eq place)
    obtain ⟨output, houtput, rfl⟩ := mem_map.1 hfile
    exact hother output.1 output.2 (Site.mem_outputs_iff.1 houtput)
  · exact hadds.keeps.trans (keepsDirs_of_writeEach hwrite)

/-- A build fails and changes nothing if the manifest cannot be read or an entry has no text. If all
entries have one, they are loaded. Then, if no name has a slash and all can be written, the build
succeeds, and the texts of the site are written. -/
theorem run_build (volume : Volume) (stdin : ByteArray) (args : List String) (path : String)
    (out : Option String) (hargs : Command.parse args = .ok (.build path out)) :
    ((∀ manifest, ¬ Manifest.Loadable volume.readText path manifest) →
      volume.run stdin args = ⟨1, "", volume⟩) ∧
    ∀ manifest dir, Manifest.Loadable volume.readText path manifest →
      dir = out.getD (Path.join (Manifest.baseOf path) manifest.outputDir) →
      ∃ site, manifest.load volume.readText (Manifest.baseOf path) .empty = (site, .ok ()) ∧
        ((∀ entry ∈ manifest.templates ++ manifest.styles, '/' ∉ entry.name.toList) →
          ∀ after, volume.carryOut (site.plan dir) = (after, .ok ()) →
            volume.run stdin args = ⟨0, "", after⟩ ∧ Written volume after site dir) := by
  constructor
  · intro hnone
    cases hplan : Manifest.plan volume.readText path out with
    | error e => exact run_of_plan_eq_error hargs hplan
    | ok plan =>
      obtain ⟨manifest, site, hfile, hload, -⟩ := Manifest.plan_eq_ok_iff.1 hplan
      exact absurd (Manifest.loadable_iff.2 ⟨hfile, site, hload⟩) (hnone manifest)
  · rintro manifest dir H rfl
    obtain ⟨hfile, site, hload⟩ := Manifest.loadable_iff.1 H
    refine ⟨site, hload, fun hnames after hwrite => ⟨?_, ?_⟩⟩
    · refine run_of_carryOut hargs ?_ hwrite
      exact Manifest.plan_eq_ok_iff.2 ⟨manifest, site, hfile, hload, rfl⟩
    · apply written_of_carryOut _ hwrite
      intro file text houtput
      exact Manifest.isFileName_of_output hload hnames houtput

/-- Two templates in the output directory, each the source of the other, and a style sheet with the
name of the first. -/
theorem run_build_swapped :
    let source := "template = [['a', 'b.ejs'], ['b', 'a.ejs']]\nstyle = [['a', 's']]"
    let texts := [("m", source), ("a.ejs", "<hr>"), ("b.ejs", "<br>"), ("s", "((p (top \"0\")))")]
    let volume : Volume := ⟨(["out"], .directory) :: texts.map fun (name, text) =>
      (["out", name], .file text.toUTF8)⟩
    let args := ["build", "-m", "out/m", "-o", "out"]
    let after := (volume.run .empty args).volume
    (volume.run .empty args).code = 0 ∧
      after.readText (Path.join "out" ("a" ++ ".ejs")) = .ok "<br>" ∧
      after.readText (Path.join "out" ("b" ++ ".ejs")) = .ok "<hr>" ∧
      after.readText (Path.join "out" ("a" ++ ".css")) = .ok "p \x7b\n  top: 0;\n\x7d\n" ∧
      after.file? ["out", "s"] = volume.file? ["out", "s"] := by
  intro source texts volume args after
  let manifest : Manifest := ⟨"dist", .empty, [⟨"a", "b.ejs"⟩, ⟨"b", "a.ejs"⟩], [⟨"a", "s"⟩]⟩
  let site := (manifest.load volume.readText (Manifest.baseOf "out/m") .empty).1
  have hargs : Command.parse args = .ok (.build "out/m" (some "out")) := by decide +kernel
  have hfile : Manifest.ofFile volume.readText "out/m" = .ok manifest := by decide +kernel
  have hload : manifest.load volume.readText (Manifest.baseOf "out/m") .empty = (site, .ok ()) :=
    Prod.ext rfl (by decide +kernel)
  let written := (volume.carryOut (site.plan "out")).1
  have hwrite : volume.carryOut (site.plan "out") = (written, .ok ()) :=
    Prod.ext rfl (by decide +kernel)
  obtain ⟨-, H⟩ := run_build volume .empty args "out/m" (some "out") hargs
  obtain ⟨_, hloaded, H⟩ := H manifest "out" (Manifest.loadable_iff.2 ⟨hfile, site, hload⟩) rfl
  cases hload.symm.trans hloaded
  obtain ⟨hrun, hwritten⟩ := H (by decide +kernel) written hwrite
  have hafter : after = written := congrArg Outcome.volume hrun
  rw [← hafter] at hwritten
  refine ⟨congrArg Outcome.code hrun, hwritten.texts _ _ (.template ?_),
    hwritten.texts _ _ (.template ?_), hwritten.texts _ _ (.style ?_),
    hwritten.others _ fun file text houtput => ?_⟩
  · decide +kernel
  · decide +kernel
  · decide +kernel
  · have hplaces : ∀ output ∈ site.outputs,
        after.locate (Path.join "out" output.1) ≠ .ok ["out", "s"] := by decide +kernel
    exact hplaces (file, text) (Site.mem_outputs_iff.2 houtput)

end Volume
end ListPress
