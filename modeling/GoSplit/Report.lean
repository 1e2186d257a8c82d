import GoSplit.Job
import GoSplit.JsonValue

/-!
Reports as JSON. The field names are those a reader of the written report relies on.
-/

namespace GoSplit

open JsonValue

def Path.toJson (p : Path) : JsonValue := string p.text

def Layout.toJson (layout : Layout) : JsonValue :=
  object [("project_name", string layout.projectName), ("root", layout.root.toJson),
    ("third_party", layout.thirdParty.toJson), ("import_prefix", string layout.importPrefix)]

def Bucket.title : Bucket → Text
  | .types => "Types".toList
  | .functions => "Functions".toList
  | .methods => "Methods".toList

def WrittenBucket.toJson (b : WrittenBucket) : JsonValue :=
  object [("bucket", string b.bucket.title), ("path", b.path.toJson),
    ("decl_count", number b.declCount), ("imports_kept", number b.importsKept),
    ("imports_pruned", number b.importsPruned)]

def RelocationOutcome.toJson : RelocationOutcome → JsonValue
  | .moved => object [("status", string "moved".toList)]
  | .alreadyRelocated => object [("status", string "already_relocated".toList)]
  | .notMaterialized => object [("status", string "not_materialized".toList)]
  | .missing => object [("status", string "missing".toList)]
  | .failed cause =>
    object [("status", string "failed".toList), ("detail", string cause.message.toList)]

def RelocationReport.toJson (r : RelocationReport) : JsonValue :=
  object [
    ("modules", array (r.modules.map fun m =>
      object [("module", string m.path), ("outcome", m.outcome.toJson)])),
    ("ordering_violations", array (r.orderingViolations.map fun (child, parent) =>
      array [string child, string parent]))]

def ShadeFailure.toJson (f : ShadeFailure) : JsonValue :=
  object [("path", f.path.toJson), ("message", string f.message.toList)]

def ShadeReport.toJson (r : ShadeReport) : JsonValue :=
  object [("files_visited", number r.filesVisited), ("files_rewritten", number r.filesRewritten),
    ("imports_rewritten", number r.importsRewritten),
    ("failures", array (r.failures.map ShadeFailure.toJson)), ("aborted", boolean r.aborted),
    ("rewritten_files", array (r.rewrittenFiles.map Path.toJson))]

def MissingPackage.toJson (m : MissingPackage) : JsonValue :=
  object [("importer", m.importer.toJson), ("import_path", string m.importPath)]

/-- The report without the times of its phases. -/
def SplitReport.fields (r : SplitReport) : List (String × JsonValue) :=
  [("input", r.input.toJson), ("package", string r.package), ("layout", r.layout.toJson),
    ("buckets", array (r.buckets.map WrittenBucket.toJson)),
    ("relocation", (r.relocation.map RelocationReport.toJson).getD null),
    ("shading", r.shading.toJson),
    ("missing_packages", array (r.missingPackages.map MissingPackage.toJson)),
    ("warnings", array (r.warnings.map fun w => string w.toList))]

/-- The times of the phases in milliseconds. Only the whole run is timed. -/
def timings (elapsed : Nat) : JsonValue :=
  object ((["parse_ms", "write_ms", "init_ms", "vendor_ms", "shade_ms", "tidy_ms"].map
    fun phase => (phase, number 0)) ++ [("total_ms", number elapsed)])

def SplitReport.toJson (r : SplitReport) (elapsed : Nat) : JsonValue :=
  object (r.fields ++ [("timings", timings elapsed)])

end GoSplit
