import GoSplit.Proofs.Bucket.Writing
import GoSplit.Proofs.SourceFile.Literals
import Mathlib.Data.List.Sort

/-!
Buckets divide a file. Every declaration is in one bucket, at its own place, and the buckets
merged by place are the declarations again; which bucket it is shows in the keyword and the
token behind it. Every bucket has all imports, in the order of the source.
-/

namespace GoSplit

namespace Bucket

variable {file : SourceFile}

/-- The declarations with their places. -/
def placed (file : SourceFile) : List (Nat × Decl) :=
  file.decls.zipIdx.map fun (decl, index) => (index, decl)

theorem members_eq (bucket : Bucket) (file : SourceFile) :
    bucket.members file = (placed file).filter fun (_, decl) => ofKind decl.kind == bucket := rfl

theorem map_fst_placed (file : SourceFile) :
    (placed file).map Prod.fst = List.range file.decls.length := by
  rw [placed, List.map_map, List.range_eq_range']
  exact List.zipIdx_map_snd 0 file.decls

theorem map_snd_placed (file : SourceFile) : (placed file).map Prod.snd = file.decls := by
  rw [placed, List.map_map]
  exact List.zipIdx_map_fst 0 file.decls

theorem increasing_placed (file : SourceFile) : (placed file).Pairwise fun a b => a.1 < b.1 := by
  have ordered : (List.range file.decls.length).Pairwise (· < ·) := List.pairwise_lt_range
  rwa [← map_fst_placed, List.pairwise_map] at ordered

theorem mem_placed_iff {n : Nat} {d : Decl} : (n, d) ∈ placed file ↔ file.decls[n]? = some d := by
  rw [← List.mk_mem_zipIdx_iff_getElem?, placed, List.mem_map]
  constructor
  · rintro ⟨⟨decl, index⟩, mem, eq⟩
    cases eq
    exact mem
  · exact fun mem => ⟨(d, n), mem, rfl⟩

theorem mem_members_iff {bucket : Bucket} {n : Nat} {d : Decl} :
    (n, d) ∈ bucket.members file ↔ file.decls[n]? = some d ∧ ofKind d.kind = bucket := by
  rw [members_eq, List.mem_filter, mem_placed_iff, beq_iff_eq]

/-- The buckets one after the other. -/
theorem perm_placed (file : SourceFile) :
    (all.flatMap fun bucket => bucket.members file).Perm (placed file) :=
  perm_filter (fun place : Nat × Decl => ofKind place.2.kind) (placed file)

/-- Merges by place. -/
def mergeByPlace (these those : List (Nat × Decl)) : List (Nat × Decl) :=
  these.merge those fun a b => a.1 ≤ b.1

theorem increasing_members (bucket : Bucket) (file : SourceFile) :
    (bucket.members file).Pairwise fun a b => a.1 < b.1 := (increasing_placed file).filter _

theorem pairwise_mergeByPlace {these those : List (Nat × Decl)}
    (left : these.Pairwise fun a b => a.1 ≤ b.1) (right : those.Pairwise fun a b => a.1 ≤ b.1) :
    (mergeByPlace these those).Pairwise fun a b => a.1 ≤ b.1 := by
  have merged := @List.pairwise_merge (Nat × Decl) (fun a b => decide (a.1 ≤ b.1))
    (fun _ _ _ le le' => by simp at le le' ⊢; omega) (fun a b => by simp; omega) these those
    (left.imp fun le => by simpa using le) (right.imp fun le => by simpa using le)
  exact merged.imp fun le => by simpa using le

/-- Merged by place, the buckets are the declarations of the file. -/
theorem mergeByPlace_members (file : SourceFile) :
    mergeByPlace (members .types file)
      (mergeByPlace (members .functions file) (members .methods file)) =
      placed file := by
  have ordered (bucket : Bucket) : (bucket.members file).Pairwise fun a b => a.1 ≤ b.1 :=
    (increasing_members bucket file).imp Nat.le_of_lt
  have perm : (mergeByPlace (members .types file)
      (mergeByPlace (members .functions file) (members .methods file))).Perm (placed file) := by
    refine ((List.merge_perm_append _).trans ?_).trans (perm_placed file)
    refine List.Perm.append_left _ ((List.merge_perm_append _).trans ?_)
    simp
  refine List.Perm.eq_of_pairwise ?_
    (pairwise_mergeByPlace (ordered _) (pairwise_mergeByPlace (ordered _) (ordered _)))
    ((increasing_placed file).imp Nat.le_of_lt) perm
  rintro ⟨n, d⟩ ⟨m, d'⟩ memLeft memRight le le'
  obtain rfl : n = m := Nat.le_antisymm le le'
  have here := mem_placed_iff.1 (perm.subset memLeft)
  rw [mem_placed_iff.1 memRight] at here
  rw [Option.some.inj here]

/-- The bucket of a well-formed heading. -/
theorem bucket_of_formed {heading : Heading} {isFunc opens : Bool}
    (formed : heading.Formed isFunc opens) :
    (ofKind heading.kind = .methods ↔ heading.receiver.isSome = true) ∧
    (heading.receiver.isSome = true ↔ isFunc = true ∧ opens = true) ∧
    (ofKind heading.kind = .functions ↔ isFunc = true ∧ heading.receiver.isSome = false) ∧
    (ofKind heading.kind = .types ↔ isFunc = false) := by
  cases formed with
  | method func opening => simp [ofKind, func, opening]
  | func func plain => simp [ofKind, func, plain]
  | value other bucket => simp [bucket, other]

/-- Classification divides a file in source order. The places of all declarations are divided
among the buckets, in each of which they increase, and the buckets merged by place are the
declarations. Methods are the declarations with a receiver, which are those that open a
parenthesis behind `func`; functions are the others that start with `func`, and types are the
rest. Every bucket has the imports of the file, whose literals follow each other in the source:
of a parenthesised declaration all that it spans, of another one the first. -/
theorem partition_of_parsed {name src : Text} {file : SourceFile}
    (parsed : SourceFile.parse name src = .ok file) :
    ((all.flatMap fun bucket => (bucket.members file).map Prod.fst).Perm
      (List.range file.decls.length) ∧
      (∀ bucket : Bucket, ((bucket.members file).map Prod.fst).Pairwise (· < ·)) ∧
      (mergeByPlace (members .types file)
        (mergeByPlace (members .functions file) (members .methods file))).map Prod.snd =
          file.decls) ∧
    (∀ n d, file.decls[n]? = some d →
      ((n, d) ∈ members .methods file ↔ d.heading.receiver.isSome = true) ∧
      (d.heading.receiver.isSome = true ↔ d.keyword.isWord "func" = true ∧
        opensList d.firstCode = true) ∧
      ((n, d) ∈ members .functions file ↔
        d.keyword.isWord "func" = true ∧ d.heading.receiver.isSome = false) ∧
      ((n, d) ∈ members .types file ↔ d.keyword.isWord "func" = false)) ∧
    (∀ bucket withPackageDoc, (draft bucket withPackageDoc file).imports =
      file.imports.flatMap (·.specs)) ∧
    ((file.imports.flatMap (·.specs)).map (·.literal)).Pairwise (fun a b => a.stop ≤ b.start) ∧
    ∀ i ∈ file.imports, i.specs.map (·.literal) =
      (if i.grouped then file.tokens.filter fun t => t.isString && i.span.covers t.span
        else (file.tokens.filter fun t => t.isString && i.span.covers t.span).take 1).map
          Token.span := by
  have source := SourceFile.parse_eq_ok_iff.1 parsed
  refine ⟨⟨?_, ?_, ?_⟩, ?_, fun _ _ => rfl, SourceFile.ordered_of_parsed source,
    fun i mem => SourceFile.literals_of_parsed source mem⟩
  · rw [← map_fst_placed, ← List.map_flatMap]
    exact (perm_placed file).map _
  · exact fun bucket => List.pairwise_map.2 (increasing_members bucket file)
  · rw [mergeByPlace_members, map_snd_placed]
  · intro n d found
    have formed := SourceFile.formed_of_parsed source d (List.mem_of_getElem? found)
    simpa only [mem_members_iff, found, true_and, Decl.kind] using bucket_of_formed formed

/-- A file with declarations of all kinds, one of them with a comment behind its keyword. -/
def mixedSource : Text :=
  ("package p\n\nimport (\n\t\"a\"\n\tb \"c\"\n)\n\ntype T int\n\nfunc F() {}\n\n" ++
    "func /* on T */ (t T) M() {}\n\nvar v = 1\n").toList

theorem partition_of_parsed_sample :
    ∃ file, SourceFile.parse "p.go".toList mixedSource = .ok file ∧ file.decls.length = 4 ∧
      (members .methods file).map Prod.fst = [2] ∧
      (mergeByPlace (members .types file)
        (mergeByPlace (members .functions file) (members .methods file))).map Prod.snd =
          file.decls := by
  have check : (SourceFile.parse "p.go".toList mixedSource).toOption.any (fun file =>
      decide (file.decls.length = 4) && decide ((members .methods file).map Prod.fst = [2])) =
        true := by
    unfold mixedSource
    rw [String.toList_append, String.toList_ofList, String.toList_ofList]
    decide +kernel
  obtain ⟨file, parsed, passed⟩ := SourceFile.exists_of_toOption_any check
  simp only [Bool.and_eq_true, decide_eq_true_eq] at passed
  exact ⟨file, parsed, passed.1, passed.2, (partition_of_parsed parsed).1.2.2⟩

end Bucket

end GoSplit
