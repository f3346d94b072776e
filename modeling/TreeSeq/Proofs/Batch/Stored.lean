import TreeSeq.Proofs.Batch.Fresh
import TreeSeq.Proofs.Glob
import TreeSeq.Proofs.Sequence.Storage
import TreeSeq.Settings

/-!
# Sequences stored in a directory

The trees of a directory are encoded into a vacant directory. Then the sequences of those
that were encoded stand there, and nothing else but the manifest, whatever there was of trees
that failed (`Stored`, `stored_of_course`).

Their names end in the suffix of sequences, so decoding takes them all, and puts the suffix
of trees back in its place (`Stored.mem_found_iff`, `Stored.target_made`). As no output is in
the way of another, none of them fails (`Stored.eq_ok`), and each tree is written under its
own name (`Stored.read_of_course`).
-/

namespace TreeSeq.Batch

open Disk (Yields)

variable {start disk disk' : Disk} {input mid out : Path} {source : Source}
  {sources trees : List Source} {place : List String} {bytes : ByteArray}

/-- The options of a batch that is given none. -/
def plainOptions (stage : Stage) : Options :=
  Settings.unset.options stage ⟨none, none, none, false⟩

theorem mem_manifestPlace_plain {stage : Stage} {output : Path} :
    place ∈ manifestPlace output (plainOptions stage) ↔
      place = output.location ++ [manifestName] := by
  have hm : (plainOptions stage).manifest = true := rfl
  rw [manifestPlace, hm, if_pos rfl, List.mem_singleton,
    Path.location_join output isName_manifestName]

/-- The name of the manifest ends in no suffix of trees or of sequences. -/
theorem append_ne_manifestName {suffix : String} (hs : Source.Marking suffix) (front : String) :
    front ++ suffix ≠ manifestName := by
  intro he
  have hsuffix : suffix.toList <:+ manifestName.toList := by
    rw [← he, String.toList_append]
    exact List.suffix_append _ _
  rcases hs with rfl | rfl <;> exact absurd hsuffix (by decide)

/-- A file whose name ends so is not the manifest. -/
theorem Source.EndsIn.names_ne {suffix : String} (h : source.EndsIn suffix)
    (hs : Source.Marking suffix) : source.names ≠ [manifestName] := by
  obtain ⟨above, front, h⟩ := h
  intro he
  have hname := congrArg List.getLast? (h.symm.trans he)
  rw [List.getLast?_concat] at hname
  exact append_ne_manifestName hs front (Option.some.inj hname)

/-- The name of a sequence ends in the suffix of sequences. -/
theorem Source.EndsIn.made (h : source.EndsIn ".ast.json") (output : Path) :
    (source.made output ".seq.json").EndsIn ".seq.json" := by
  obtain ⟨above, front, h⟩ := h
  exact ⟨above, front, Source.outputNames_of_endsIn (.inl rfl) h _⟩

/-! ## Sequences in a directory -/

/-- The sequences of some trees, as they were read at the start, stand in a directory, and
nothing else but a manifest. -/
structure Stored (start disk : Disk) (mid : Path) (trees : List Source) : Prop where
  ends : ∀ source ∈ trees, source.EndsIn ".ast.json"
  named : ∀ source ∈ trees, ∀ name ∈ source.names, Path.IsName name
  distinct : (trees.map (·.names)).Nodup
  /-- No tree is in a directory of the name of another. -/
  apart : ∀ source ∈ trees, ∀ other ∈ trees, source.names <+: other.names →
    source.names = other.names
  unlisted : ∀ source ∈ trees, ¬ [manifestName] <+: source.names
  holds : ∀ source ∈ trees, ∃ (bytes : ByteArray) (tree : Node) (text : String),
    start.read source.path = .ok bytes ∧ Node.load bytes = .ok tree ∧
      disk.read (source.target mid ".seq.json") = .ok text.toUTF8 ∧
      Conversion.decode text.toUTF8 = .ok ⟨tree.save, tree.count⟩
  only : ∀ place bytes, mid.Above place → disk.entry? place = some (.file bytes) →
    place = mid.location ++ [manifestName] ∨
      ∃ source ∈ trees, place = mid.location ++ source.outputNames ".seq.json"

/-- A directory of the name of the manifest is not on the way to a tree whose sequence
stands beside the manifest. -/
theorem unlisted_of_files (hw : disk.WellFormed) (hends : source.EndsIn ".ast.json")
    (hm : disk.entry? (mid.location ++ [manifestName]) = some (.file bytes))
    {bytes' : ByteArray}
    (hs : disk.entry? (mid.location ++ source.outputNames ".seq.json") = some (.file bytes')) :
    ¬ [manifestName] <+: source.names := by
  obtain ⟨above, front, hnames⟩ := hends
  rw [Source.outputNames_of_endsIn (.inl rfl) hnames] at hs
  rw [hnames]
  cases above with
  | nil =>
    intro hp
    have hlast : manifestName = front ++ ".ast.json" := by simpa using hp
    exact append_ne_manifestName (.inl rfl) front hlast.symm
  | cons first above =>
    intro hp
    obtain rfl : manifestName = first := by simpa using hp
    have hsplit : mid.location ++ (manifestName :: above ++ [front ++ ".seq.json"]) =
        mid.location ++ [manifestName] ++ (above ++ [front ++ ".seq.json"]) := by simp
    rw [hsplit] at hs
    exact List.concat_ne_nil _ _ (hw.eq_nil_of_file hm hs)

theorem named_of_endsIn (hw : disk.WellFormed) (hk : disk.kind? input = some .directory)
    (passage : Passage .encode .encode input mid (plainOptions .encode) disk)
    (hends : ∀ source ∈ passage.steps.map (·.1), source.EndsIn ".ast.json") : passage.Named :=
  fun source hs => Source.isName_of_outputNames (.inl rfl) (.inr rfl) (hends source hs)
    (isName_of_discover hw hk passage.found hs)

/-- Trees that are encoded into a vacant directory are stored there. -/
theorem stored_of_course (hw : disk.WellFormed) (hk : disk.kind? input = some .directory)
    (hmid : disk.Vacant mid)
    (course : Course .encode .encode input mid (plainOptions .encode)
      (manifestPlace mid (plainOptions .encode)) disk disk')
    (hends : ∀ source ∈ course.steps.map (·.1), source.EndsIn ".ast.json")
    (hcount : ∀ source ∈ course.steps.map (·.1), ∀ bytes tree,
      disk.read source.path = .ok bytes → Node.load bytes = .ok tree → tree.count ≤ UInt64.size) :
    Stored disk disk' mid (Step.converted course.steps) := by
  have hsub := (Step.converted_sublist course.steps).subset
  have hnamed := named_of_endsIn hw hk course.toPassage hends
  have hplace : ∀ source ∈ course.steps.map (·.1),
      (stageTarget .encode mid (plainOptions .encode) source).location =
        mid.location ++ source.outputNames ".seq.json" := fun source hs =>
    Source.location_target (hnamed source hs)
  have hdistinct : ((course.steps.map (·.1)).map fun source =>
      (stageTarget .encode mid (plainOptions .encode) source).location).Nodup := by
    have hnodup := nodup_names hw course.found
    refine List.Nodup.map_on (fun source hs other ho he => ?_) (List.Nodup.of_map _ hnodup)
    rw [hplace source hs, hplace other ho, List.append_cancel_left_eq] at he
    exact List.inj_on_of_nodup_map hnodup hs ho
      (Source.names_eq_of_outputNames (.inl rfl) (hends source hs) (hends other ho) he)
  have hholds : ∀ source ∈ Step.converted course.steps,
      ∃ (bytes : ByteArray) (tree : Node) (text : String),
        disk.read source.path = .ok bytes ∧ Node.load bytes = .ok tree ∧
          disk'.read (source.target mid ".seq.json") = .ok text.toUTF8 ∧
          Conversion.decode text.toUTF8 = .ok ⟨tree.save, tree.count⟩ := by
    intro source hs
    obtain ⟨items, hstep⟩ := Step.mem_converted.mp hs
    obtain ⟨bytes, hb⟩ := exists_read_of_discover hw course.found (hsub hs)
    have hlast : source.outputNames ".seq.json" ≠ [manifestName] :=
      ((hends source (hsub hs)).made mid).names_ne (.inr rfl)
    obtain ⟨product, hp, -, hread⟩ := course.read_of_ok hmid hnamed hdistinct hstep hb hlast
    obtain ⟨tree, hload, hdecode⟩ :=
      Conversion.decode_of_encode hp fun tree => hcount source (hsub hs) bytes tree hb
    exact ⟨bytes, tree, product.text, hb, hload, hread, hdecode⟩
  have hmanifest := (Disk.read_eq_ok_iff.mp (course.lists rfl)).2.2
  rw [Path.location_join mid isName_manifestName] at hmanifest
  constructor
  case ends => exact fun source hs => hends source (hsub hs)
  case named => exact fun source hs => isName_of_discover hw hk course.found (hsub hs)
  case distinct =>
    exact (nodup_names hw course.found).sublist ((Step.converted_sublist course.steps).map _)
  case apart =>
    exact fun source hs other ho => apart_of_discover hw hk course.found (hsub hs) (hsub ho)
  case unlisted =>
    intro source hs
    obtain ⟨_, _, text, -, -, hread, -⟩ := hholds source hs
    have htarget : (source.target mid ".seq.json").location =
        mid.location ++ source.outputNames ".seq.json" := hplace source (hsub hs)
    have hfile := (Disk.read_eq_ok_iff.mp hread).2.2
    rw [htarget] at hfile
    exact unlisted_of_files (course.wellFormed (course.toPassage.wellFormed hw))
      (hends source (hsub hs)) hmanifest hfile
  case holds => exact hholds
  case only =>
    intro place bytes ha he
    rcases course.mem_of_file hmid ha he with hp | hp
    · obtain ⟨source, items, hs, rfl⟩ := Step.mem_places.mp hp
      have hm : source ∈ Step.converted course.steps := Step.mem_converted.mpr ⟨items, hs⟩
      exact .inr ⟨source, hm, hplace source (hsub hm)⟩
    · exact .inl (mem_manifestPlace_plain.mp hp)

/-! ## Sequences that are decoded -/

theorem Source.made_congr {other : Source} (h : source.names = other.names) (output : Path)
    (suffix : String) : source.made output suffix = other.made output suffix := by
  rw [made, made, target_eq, target_eq, outputNames, outputNames, h]

theorem parseList_sequences : Glob.parseList (plainOptions .decode).pattern =
    .ok [.directories :: .many :: ".seq.json".toList.map .char] := by
  decide +kernel

namespace Stored

variable (h : Stored start disk mid trees) (hw : disk.WellFormed)
  (hk : disk.kind? mid = some .directory)

include h

/-- What is made of a sequence has the name of the tree. -/
theorem outputNames_made (hm : source ∈ trees) :
    (source.made mid ".seq.json").outputNames ".ast.json" = source.names :=
  Source.outputNames_outputNames (.inl rfl) (.inr rfl) (h.ends source hm) rfl

theorem target_made (hm : source ∈ trees) :
    stageTarget .decode out (plainOptions .decode) (source.made mid ".seq.json") =
      out.joinAll source.names :=
  congrArg out.joinAll (h.outputNames_made hm)

/-- There is no sequence of a file that is none of the trees. -/
theorem noFile_sequence (hends : source.EndsIn ".ast.json")
    (hn : ∀ name ∈ source.names, Path.IsName name)
    (hother : ∀ tree ∈ trees, source.names ≠ tree.names) :
    disk.NoFile (source.target mid ".seq.json").location := by
  have hnamed := Source.isName_of_outputNames (.inl rfl) (.inr rfl) hends hn
  have habove : mid.Above (source.target mid ".seq.json").location := Source.above_target hnamed
  intro bytes hb
  rcases h.only _ _ habove hb with hp | ⟨tree, ht, hp⟩
  · rw [Source.location_target hnamed, List.append_cancel_left_eq] at hp
    exact (hends.made mid).names_ne (.inr rfl) hp
  · rw [Source.location_target hnamed, List.append_cancel_left_eq] at hp
    exact hother tree ht (Source.names_eq_of_outputNames (.inl rfl) hends (h.ends tree ht) hp)

include hw hk

/-- All sequences are found, and nothing else. -/
theorem mem_found_iff {found : List Source}
    (hf : Yields (discover mid (plainOptions .decode).pattern) disk found disk') :
    source ∈ found ↔ ∃ tree ∈ trees, source = tree.made mid ".seq.json" := by
  constructor
  · intro hm
    obtain ⟨hne, hsource, hl, bytes, hb⟩ := below_of_mem_discover hw hk hf hm
    rcases h.only _ _ ⟨source.names, hne, hl⟩ hb with hmanifest | ⟨tree, ht, hplace⟩
    · obtain ⟨-, -, -, -, hselects⟩ := (mem_discover_iff hw hf).mp hm
      rw [hl, List.append_cancel_left_eq] at hmanifest
      have hselected := hselects _ parseList_sequences
      rw [hmanifest] at hselected
      exact absurd hselected (by decide +kernel)
    · rw [hl, List.append_cancel_left_eq] at hplace
      exact ⟨tree, ht, by rw [hsource, hplace]; rfl⟩
  · rintro ⟨tree, ht, rfl⟩
    obtain ⟨_, _, text, -, -, hread, -⟩ := h.holds tree ht
    obtain ⟨above, front, hnames⟩ := h.ends tree ht
    have hout := Source.outputNames_of_endsIn (.inl rfl) hnames ".seq.json"
    have hplace : (tree.target mid ".seq.json").location =
        mid.location ++ tree.outputNames ".seq.json" :=
      Source.location_target (Source.isName_of_outputNames (.inl rfl) (.inr rfl)
        (h.ends tree ht) (h.named tree ht))
    have hfile := (Disk.read_eq_ok_iff.mp hread).2.2
    rw [hplace] at hfile
    refine (mem_discover_iff hw hf).mpr
      ⟨_, _, hfile, (tree.ofNames_outputNames mid ".seq.json").symm, fun patterns hp => ?_⟩
    rw [parseList_sequences] at hp
    cases hp
    show Glob.selects _ (tree.outputNames ".seq.json") = true
    rw [hout]
    refine Glob.selects_of_ending fun c hc => ?_
    have hascii : ".seq.json".toList.all fun c =>
        c.toNat < 0x80 ∧ c.isUpper = false ∧ c ≠ '\\' := by
      decide
    obtain ⟨h7, hu, hslash⟩ := of_decide_eq_true (List.all_eq_true.mp hascii c hc)
    exact ⟨Text.isLower_of_ascii h7 hu, hslash⟩

variable (passage : Passage .decode .decode mid out (plainOptions .decode) disk)

theorem mem_steps_iff : source ∈ passage.steps.map (·.1) ↔
    ∃ tree ∈ trees, source = tree.made mid ".seq.json" :=
  h.mem_found_iff hw hk passage.found

theorem named_passage : passage.Named := by
  intro source hs
  obtain ⟨tree, ht, rfl⟩ := (h.mem_steps_iff hw hk passage).mp hs
  show ∀ name ∈ (tree.made mid ".seq.json").outputNames ".ast.json", Path.IsName name
  rw [h.outputNames_made ht]
  exact h.named tree ht

/-- The trees do not get in the way of each other. -/
theorem apart_passage (hout : disk.Vacant out) :
    Apart (stageTarget .decode out (plainOptions .decode)) (passage.steps.map (·.1)) := by
  constructor
  case distinct =>
    have hnodup := List.Nodup.of_map _ (nodup_names hw passage.found)
    refine List.Nodup.map_on (fun source hs other ho he => ?_) hnodup
    obtain ⟨tree, ht, rfl⟩ := (h.mem_steps_iff hw hk passage).mp hs
    obtain ⟨tree', ht', rfl⟩ := (h.mem_steps_iff hw hk passage).mp ho
    rw [h.target_made ht, h.target_made ht', Path.location_joinAll out (h.named tree ht),
      Path.location_joinAll out (h.named tree' ht'), List.append_cancel_left_eq] at he
    exact Source.made_congr he _ _
  case aside =>
    intro source hs other ho hne hway
    obtain ⟨tree, ht, rfl⟩ := (h.mem_steps_iff hw hk passage).mp hs
    obtain ⟨tree', ht', rfl⟩ := (h.mem_steps_iff hw hk passage).mp ho
    have hnil : ∀ tree ∈ trees, tree.names ≠ [] := by
      intro tree ht
      rw [← h.outputNames_made ht]
      exact Source.outputNames_ne_nil _ _
    rw [h.target_made ht, h.target_made ht', Path.location_joinAll out (h.named tree ht)] at hway
    rcases Path.way_joinAll out (hnil tree' ht') (h.named tree' ht') hway with
      hentered | ⟨front, -, hprefix, hfront, he⟩
    · exact hout.aside _ hentered ⟨_, hnil tree ht, rfl⟩
    · rw [List.append_cancel_left_eq] at he
      rw [← he] at hprefix hfront
      exact hfront (h.apart tree ht tree' ht' hprefix)
  case unread =>
    intro source hs other ho he
    have habove : out.Above (stageTarget .decode out (plainOptions .decode) source).location :=
      Source.above_target (h.named_passage hw hk passage source hs)
    obtain ⟨-, -, -, bytes, hb⟩ := below_of_mem_discover hw hk passage.found ho
    rw [← he, hout.empty _ habove] at hb
    cases hb

/-- No sequence fails to be decoded. -/
theorem eq_ok (hout : disk.Vacant out) : ∀ step ∈ passage.steps, ∃ items, step.2 = .ok items := by
  refine passage.eq_ok_of_apart hw hout (h.named_passage hw hk passage)
    (h.apart_passage hw hk passage hout) fun source hs => ?_
  obtain ⟨tree, ht, rfl⟩ := (h.mem_steps_iff hw hk passage).mp hs
  obtain ⟨_, _, text, -, -, hread, hdecode⟩ := h.holds tree ht
  exact ⟨_, _, hread, hdecode⟩

/-- There is one sequence for each tree. -/
theorem length_steps : passage.steps.length = trees.length := by
  have hnodup := List.Nodup.of_map _ (nodup_names hw passage.found)
  have hmade : (trees.map fun tree => tree.made mid ".seq.json").Nodup := by
    refine List.Nodup.map_on (fun tree ht tree' ht' he => ?_) (List.Nodup.of_map _ h.distinct)
    refine List.inj_on_of_nodup_map h.distinct ht ht' ?_
    exact Source.names_eq_of_outputNames (.inl rfl) (h.ends tree ht) (h.ends tree' ht')
      (congrArg Source.names he)
  have hperm :
      (passage.steps.map (·.1)).Perm (trees.map fun tree => tree.made mid ".seq.json") := by
    refine (List.perm_ext_iff_of_nodup hnodup hmade).mpr fun source => ?_
    rw [h.mem_steps_iff hw hk passage, List.mem_map]
    simp only [eq_comm]
  have hlength := hperm.length_eq
  rwa [List.length_map, List.length_map] at hlength

/-- Decoding goes through. -/
theorem exists_course (hout : disk.Vacant out) :
    ∃ disk', ∃ course : Course .decode .decode mid out (plainOptions .decode)
        (manifestPlace out (plainOptions .decode)) disk disk',
      disk.run (decode mid out (plainOptions .decode)) = (.ok course.report, disk') := by
  obtain ⟨outcome, disk', hrun⟩ := disk.exists_run (Task.decode.run mid out (plainOptions .decode))
  cases Task.ended hrun with
  | @through convert course hconvert =>
    cases hconvert
    exact ⟨disk', course, hrun⟩
  | stopped hstop =>
    cases hstop with
    | refused he => cases he []
    | unsaved hv => cases hv
    | lost hlost =>
      have hsome : (disk.kind? mid).isSome := by rw [hk]; rfl
      have hfound := Disk.yields_iff_run.mp
        (yields_discover_iff.mpr ⟨rfl, hsome, _, parseList_sequences, rfl⟩)
      rw [hlost] at hfound
      cases hfound
    | shut hshut =>
      obtain ⟨opened, ho⟩ := Disk.exists_ensureDirectory hout.noFile
      rw [Disk.yields_iff_run, hshut] at ho
      cases ho
    | unlisted passage hconvert hunlisted =>
      cases hconvert
      have hbeside : ∀ source ∈ passage.steps.map (·.1),
          ¬ [manifestName] <+: source.outputNames ".ast.json" := by
        intro source hs
        obtain ⟨tree, ht, rfl⟩ := (h.mem_steps_iff hw hk passage).mp hs
        rw [h.outputNames_made ht]
        exact h.unlisted tree ht
      obtain ⟨last, hlisted⟩ := passage.exists_overwrite hw hout (h.named_passage hw hk passage)
        hbeside (Manifest.save passage.entries)
      rw [Disk.yields_iff_run, hunlisted] at hlisted
      cases hlisted

section

variable (hout : disk.Vacant out)
  (course : Course .decode .decode mid out (plainOptions .decode)
    (manifestPlace out (plainOptions .decode)) disk disk')

include hout course

/-- Once the sequences are decoded, all trees have their texts again. -/
theorem read_of_course (hm : source ∈ trees) : ∃ bytes tree, start.read source.path = .ok bytes ∧
    Node.load bytes = .ok tree ∧ disk'.read (out.joinAll source.names) = .ok tree.save.toUTF8 := by
  obtain ⟨⟨found, outcome⟩, hs, rfl⟩ :
      ∃ step ∈ course.steps, step.1 = source.made mid ".seq.json" :=
    List.mem_map.mp ((h.mem_steps_iff hw hk course.toPassage).mpr ⟨source, hm, rfl⟩)
  obtain ⟨items, rfl⟩ := h.eq_ok hw hk course.toPassage hout _ hs
  obtain ⟨bytes, tree, text, hb, hload, hread, hdecode⟩ := h.holds source hm
  have hdistinct := (h.apart_passage hw hk course.toPassage hout).distinct
  have hlast : (source.made mid ".seq.json").outputNames ".ast.json" ≠ [manifestName] := by
    rw [h.outputNames_made hm]
    exact fun he => h.unlisted source hm (he ▸ List.prefix_refl _)
  obtain ⟨product, hp, -, hwritten⟩ := course.read_of_ok hout
    (h.named_passage hw hk course.toPassage) hdistinct hs hread hlast
  rw [hdecode] at hp
  cases hp
  rw [h.target_made hm] at hwritten
  exact ⟨bytes, tree, hb, hload, hwritten⟩

/-- Nothing else is there but a manifest. -/
theorem mem_of_course (ha : out.Above place) (he : disk'.entry? place = some (.file bytes)) :
    place = out.location ++ [manifestName] ∨
      ∃ source ∈ trees, place = out.location ++ source.names := by
  rcases course.mem_of_file hout ha he with hp | hp
  · obtain ⟨source, items, hs, rfl⟩ := Step.mem_places.mp hp
    obtain ⟨tree, ht, rfl⟩ := (h.mem_steps_iff hw hk course.toPassage).mp
      (List.mem_map.mpr ⟨_, hs, rfl⟩)
    rw [h.target_made ht, Path.location_joinAll out (h.named tree ht)]
    exact .inr ⟨tree, ht, rfl⟩
  · exact .inl (mem_manifestPlace_plain.mp hp)

/-- A file that is none of the trees is not there. -/
theorem noFile_of_course (hends : source.EndsIn ".ast.json")
    (hn : ∀ name ∈ source.names, Path.IsName name)
    (hother : ∀ tree ∈ trees, source.names ≠ tree.names) :
    disk'.NoFile (out.joinAll source.names).location := by
  have hne : source.names ≠ [] := by
    obtain ⟨above, front, hnames⟩ := hends
    rw [hnames]
    exact List.concat_ne_nil _ _
  intro bytes hb
  rw [Path.location_joinAll out hn] at hb
  rcases h.mem_of_course hw hk hout course ⟨_, hne, rfl⟩ hb with hp | ⟨tree, ht, hp⟩
  · exact hends.names_ne (.inl rfl) (List.append_cancel_left hp)
  · exact hother tree ht (List.append_cancel_left hp)

/-- The report counts the trees. -/
theorem report_of_course : course.report = ⟨trees.length, []⟩ := by
  have hok := h.eq_ok hw hk course.toPassage hout
  have hreport := Report.ofEntries_steps .decode (stageTarget .decode out (plainOptions .decode))
    course.steps
  have hcount : course.steps.countP (·.2.isOk) = course.steps.length := by
    refine List.countP_eq_length.mpr fun step hs => ?_
    obtain ⟨items, he⟩ := hok step hs
    rw [he]
    rfl
  have hfailed : course.steps.filterMap Step.failure? = [] := by
    refine List.filterMap_eq_nil_iff.mpr fun step hs => ?_
    obtain ⟨items, he⟩ := hok step hs
    rw [Step.failure?, he]
  rw [hcount, hfailed, h.length_steps hw hk course.toPassage] at hreport
  exact hreport

end

end Stored

end TreeSeq.Batch
