import TreeSeq.Proofs.Batch.Stored

/-!
# From trees to sequences and back

The trees of a directory are encoded into a vacant directory, and the sequences there are
decoded into another one. Each tree that was encoded is written again, under its own name,
and there is nothing of the others (`restored_of_encode`).
-/

namespace TreeSeq.Batch

open Disk (Yields)

variable {disk : Disk} {input mid out : Path} {report : Report} {sources : List Source}

/-! ## There and back -/

/-- What is left of the trees of a directory once they were encoded and decoded, the report
being that of the encoding. -/
structure Restored (start disk : Disk) (sources : List Source) (mid out : Path)
    (report : Report) : Prop where
  /-- A tree that did not fail has the text again that it is written as. -/
  restored : ∀ source ∈ sources, source.path.text ∉ report.failed.map (·.1) →
    ∃ bytes tree, start.read source.path = .ok bytes ∧ Node.load bytes = .ok tree ∧
      disk.read (out.joinAll source.names) = .ok tree.save.toUTF8
  /-- A tree that failed is in neither directory. -/
  absent : ∀ source ∈ sources, source.path.text ∈ report.failed.map (·.1) →
    disk.NoFile (source.target mid ".seq.json").location ∧
      disk.NoFile (out.joinAll source.names).location
  /-- Besides a manifest, there are only trees that did not fail. -/
  only : ∀ place bytes, out.Above place → disk.entry? place = some (.file bytes) →
    place = (out.join manifestName).location ∨
      ∃ source ∈ sources, source.path.text ∉ report.failed.map (·.1) ∧
        place = (out.joinAll source.names).location

/-- Encoding the trees of a directory into a directory that is vacant and decoding the
sequences into another one restores the trees that were encoded, and no sequence fails. -/
theorem restored_of_encode (hw : disk.WellFormed) (hk : disk.kind? input = some .directory)
    (hf : Yields (discover input (plainOptions .encode).pattern) disk sources disk)
    (hends : ∀ source ∈ sources, source.EndsIn ".ast.json")
    (hmid : disk.Vacant mid) (hout : disk.Vacant out) (hs : mid.Separate out)
    (hcount : ∀ source ∈ sources, ∀ bytes tree, disk.read source.path = .ok bytes →
      Node.load bytes = .ok tree → tree.count ≤ UInt64.size)
    {between : Disk}
    (h : disk.run (encode input mid (plainOptions .encode)) = (.ok report, between)) :
    ∃ disk', between.run (decode mid out (plainOptions .decode)) =
        (.ok ⟨report.processed, []⟩, disk') ∧
      Restored disk disk' sources mid out report := by
  have hrun : disk.run (Task.encode.run input mid (plainOptions .encode)) = (.ok report, between) :=
    h
  cases Task.ended hrun with
  | @through convert course hconvert =>
    cases hconvert
    obtain rfl : sources = course.steps.map (·.1) :=
      Except.ok.inj (Prod.mk.inj (hf.symm.trans course.found)).1
    have hnamed := named_of_endsIn hw hk course.toPassage hends
    have hstored := stored_of_course hw hk hmid course hends hcount
    have hbetween := course.wellFormed (course.toPassage.wellFormed hw)
    have hfound := course.kind?_output hw hmid
    have hvacant := course.vacant hnamed hs hout
    obtain ⟨disk', course', hdecoded⟩ := hstored.exists_course hbetween hfound hvacant
    have hnamed' := hstored.named_passage hbetween hfound course'.toPassage
    have hreport : course.report =
        ⟨course.steps.countP (·.2.isOk), course.steps.filterMap Step.failure?⟩ :=
      Report.ofEntries_steps _ _ _
    have hcounted : course.report.processed = (Step.converted course.steps).length := by
      rw [hreport, Step.converted, List.length_map, List.countP_eq_length_filter]
    have hpaths : (course.steps.map (·.1.path.text)).Nodup := by
      have hnodup := nodup_paths hw course.found
      rwa [List.map_map] at hnodup
    have hiff : ∀ source ∈ course.steps.map (·.1), source ∈ Step.converted course.steps ↔
        source.path.text ∉ course.report.failed.map (·.1) := by
      intro source hm
      rw [hreport]
      exact Step.mem_converted_iff hpaths hm
    have hsub := (Step.converted_sublist course.steps).subset
    rw [hstored.report_of_course hbetween hfound hvacant course', ← hcounted] at hdecoded
    refine ⟨disk', hdecoded, ?_⟩
    constructor
    case restored =>
      intro source hm hok
      exact hstored.read_of_course hbetween hfound hvacant course' ((hiff source hm).mpr hok)
    case absent =>
      intro source hm hfailed
      have hother : ∀ tree ∈ Step.converted course.steps, source.names ≠ tree.names := by
        intro tree ht he
        obtain rfl := List.inj_on_of_nodup_map (nodup_names hw course.found) hm (hsub ht) he
        exact (hiff source hm).mp ht hfailed
      have hn := isName_of_discover hw hk course.found hm
      refine ⟨fun bytes hb => ?_,
        hstored.noFile_of_course hbetween hfound hvacant course' (hends source hm) hn hother⟩
      have habove : mid.Above (source.target mid ".seq.json").location :=
        Source.above_target (hnamed source hm)
      rw [course'.eq_of_separate hnamed' hs.symm habove] at hb
      exact hstored.noFile_sequence (hends source hm) hn hother bytes hb
    case only =>
      intro place bytes ha he
      rw [Path.location_join out isName_manifestName]
      refine (hstored.mem_of_course hbetween hfound hvacant course' ha he).imp_right ?_
      rintro ⟨source, hm, hp⟩
      refine ⟨source, hsub hm, (hiff source (hsub hm)).mp hm, ?_⟩
      rw [hp, Path.location_joinAll out (hstored.named source hm)]

/-! ## A directory with two trees -/

/-- A tree, one that cannot be read, and two empty directories. -/
def grove : Disk :=
  ⟨[(["in"], .directory),
    (["in", "a.ast.json"], .file
      "\x7b\"_nodetype\":\"Decl\",\"type\":[\x7b\"_nodetype\":\"ID\"\x7d]\x7d".toUTF8),
    (["in", "b"], .directory),
    (["in", "b", "c.ast.json"], .file "[]".toUTF8),
    (["mid"], .directory), (["out"], .directory)], by decide⟩

def groveSources : List Source :=
  [⟨⟨"in/a.ast.json"⟩, ["a.ast.json"]⟩, ⟨⟨"in/b/c.ast.json"⟩, ["b", "c.ast.json"]⟩]

theorem wellFormed_grove : grove.WellFormed :=
  have hin := Disk.wellFormed_empty.add [] "in" .directory rfl (by decide) rfl
  have ha := hin.add ["in"] "a.ast.json" _ rfl (by decide) rfl
  have hb := ha.add ["in"] "b" .directory rfl (by decide) rfl
  have hc := hb.add ["in", "b"] "c.ast.json" _ rfl (by decide) rfl
  (hc.add [] "mid" .directory rfl (by decide) rfl).add [] "out" .directory rfl (by decide) rfl

theorem discover_grove :
    Yields (discover ⟨"in"⟩ (plainOptions .encode).pattern) grove groveSources grove := by
  have hp : Glob.parseList (plainOptions .encode).pattern =
      .ok [.directories :: .many :: ".ast.json".toList.map .char] := by decide +kernel
  have hf : ((grove.filesBelow ⟨"in"⟩).map (Source.ofNames ⟨"in"⟩)).filter
      (Glob.selects [.directories :: .many :: ".ast.json".toList.map .char] ·.names) =
        groveSources := by decide +kernel
  refine yields_discover_iff.mpr ⟨rfl, by decide +kernel, _, hp, ?_⟩
  rw [hf, List.mergeSort_of_pairwise (by decide +kernel)]

/-- Two directories are empty, so they are vacant and separate. -/
theorem vacant_grove :
    grove.Vacant ⟨"mid"⟩ ∧ grove.Vacant ⟨"out"⟩ ∧ Path.Separate ⟨"mid"⟩ ⟨"out"⟩ := by
  have hmid : grove.kind? ⟨"mid"⟩ = some .directory := by decide +kernel
  have hout : grove.kind? ⟨"out"⟩ = some .directory := by decide +kernel
  have hmidempty : ∀ location ∈ Fields.names grove.entries, ¬ Path.Above ⟨"mid"⟩ location := by
    decide +kernel
  have houtempty : ∀ location ∈ Fields.names grove.entries, ¬ Path.Above ⟨"out"⟩ location := by
    decide +kernel
  exact ⟨Disk.vacant_of_empty hmid hmidempty, Disk.vacant_of_empty hout houtempty,
    Disk.separate_of_empty hmid hmidempty hout houtempty (by decide +kernel)⟩

/-- What becomes of a tree, told without the walk through it. -/
theorem Conversion.encode_eq : Conversion.encode = fun bytes => do
    let tree ← Node.load bytes
    let sequence ← match tree.preorder.findIdx? (·.nodeType.isEmpty) with
      | some position => .error (.tree (.untypedNode (0 + position)))
      | none => .ok (tree.records 0)
    return ⟨sequence.save, sequence.length⟩ := by
  funext bytes
  refine bind_congr fun tree => ?_
  rw [Node.encode_eq]
  cases tree.preorder.findIdx? (·.nodeType.isEmpty) <;> rfl

theorem report_grove :
    ((grove.run (encode ⟨"in"⟩ ⟨"mid"⟩ (plainOptions .encode))).1.toOption.map (·.processed)) =
      some 1 := by
  unfold encode Batch.run
  rw [Disk.run_bind_of_ok (Disk.yields_iff_run.mp discover_grove), Conversion.encode_eq]
  decide +kernel

/-- The nodes of both trees can be numbered. -/
theorem count_grove : groveSources.all fun source =>
    match grove.read source.path with
    | .ok bytes => (Node.load bytes).toOption.all (·.count ≤ UInt64.size)
    | .error _ => true := by
  decide +kernel

/-- The first tree comes back, the second one is nowhere. -/
theorem restored_of_encode_grove : ∃ report between disk',
    grove.run (encode ⟨"in"⟩ ⟨"mid"⟩ (plainOptions .encode)) = (.ok report, between) ∧
      report.processed = 1 ∧
      between.run (decode ⟨"mid"⟩ ⟨"out"⟩ (plainOptions .decode)) = (.ok ⟨1, []⟩, disk') ∧
      Restored grove disk' groveSources ⟨"mid"⟩ ⟨"out"⟩ report := by
  obtain ⟨outcome, between, h⟩ :=
    grove.exists_run (encode ⟨"in"⟩ ⟨"mid"⟩ (plainOptions .encode))
  have hreport := report_grove
  rw [h] at hreport
  cases outcome with
  | error e => cases hreport
  | ok report =>
    have hprocessed : report.processed = 1 := Option.some.inj hreport
    have hends : ∀ source ∈ groveSources, source.EndsIn ".ast.json" := by
      rw [groveSources, List.forall_mem_cons, List.forall_mem_singleton]
      exact ⟨⟨[], "a", by decide⟩, ⟨["b"], "c", by decide⟩⟩
    have hcount : ∀ source ∈ groveSources, ∀ bytes tree, grove.read source.path = .ok bytes →
        Node.load bytes = .ok tree → tree.count ≤ UInt64.size := by
      intro source hs bytes tree hb hl
      have hc := List.all_eq_true.mp count_grove source hs
      rw [hb] at hc
      simp only [hl] at hc
      exact of_decide_eq_true hc
    obtain ⟨hmid, hout, hseparate⟩ := vacant_grove
    obtain ⟨disk', hdecoded, hrestored⟩ := restored_of_encode wellFormed_grove
      (by decide +kernel) discover_grove hends hmid hout hseparate hcount h
    rw [hprocessed] at hdecoded
    exact ⟨report, between, disk', h, hprocessed, hdecoded, hrestored⟩

end TreeSeq.Batch
