import TrackFusion.Scenario.Event
import TrackFusion.Text.Record
import TrackFusion.Scalar.Binary

/-!
The JSON format of events and options.

Points, vectors and quaternions are arrays of their coordinates, and a covariance is an array of its
nine entries column by column. Every field of an event is required but the covariance and the twist
of a detection; every field of the options has a default but those of the camera and of the motion
model.
-/

set_option autoImplicit false
set_option relaxedAutoImplicit false

namespace TrackFusion

namespace Format

open Json

def vec2? (value : Json) : Option (Vec2 Float) := do
  match ← list? float? value with
  | [x, y] => some ⟨x, y⟩
  | _ => none

def vec3? (value : Json) : Option (Vec3 Float) := do
  match ← list? float? value with
  | [x, y, z] => some ⟨x, y, z⟩
  | _ => none

/-- A quaternion, vector part first. -/
def quaternion? (value : Json) : Option (Quaternion Float) := do
  match ← list? float? value with
  | [i, j, k, w] => some ⟨i, j, k, w⟩
  | _ => none

def matrix? (value : Json) : Option (Mat 3 3 Float) := do
  match ← list? float? value with
  | [a, b, c, d, e, f, g, h, i] => some ⟨#v[#v[a, d, g], #v[b, e, h], #v[c, f, i]]⟩
  | _ => none

def pose? (value : Json) : Option (Pose Float) := do
  match ← value.fields? .plain ["rotation", "translation"] with
  | [rotation, offset] =>
    return ⟨← required quaternion? rotation, ← required vec3? offset⟩
  | _ => none

def objectClass? (value : Json) : Option ObjectClass := do
  match ← caseName? value with
  | "Unknown" => some .unknown
  | "Car" => some .car
  | "Truck" => some .truck
  | "Bus" => some .bus
  | "Trailer" => some .trailer
  | "Motorcycle" => some .motorcycle
  | "Bicycle" => some .bicycle
  | "Pedestrian" => some .pedestrian
  | _ => none

def hypothesis? (value : Json) : Option (Hypothesis Float32) := do
  match ← value.fields? .plain ["classification", "probability"] with
  | [objectClass, probability] =>
    return ⟨← required objectClass? objectClass, ← required float32? probability⟩
  | _ => none

def twist? (value : Json) : Option (Twist Float) := do
  match ← value.fields? .plain ["linear", "angular"] with
  | [linear, angular] => return ⟨← required vec3? linear, ← required vec3? angular⟩
  | _ => none

def shape? (value : Json) : Option (Shape Float) := do
  match ← value.fields? .plain ["polygon", "height"] with
  | [polygon, height] => return ⟨← required (list? vec3?) polygon, ← required float? height⟩
  | _ => none

def header? (value : Json) : Option Header := do
  match ← value.fields? .plain ["stamp", "frame_id"] with
  | [stamp, frame] => return ⟨← required duration? stamp, ← required string? frame⟩
  | _ => none

def kinematics? (value : Json) :
    Option (Vec3 Float × Option (Mat 3 3 Float) × Option (Twist Float)) := do
  match ← value.fields? .plain ["centroid_position", "position_covariance", "twist"] with
  | [centroid, covariance, twist] =>
    return (← required vec3? centroid, ← optional matrix? covariance, ← optional twist? twist)
  | _ => none

def detection? (value : Json) : Option (Detection Float Float32) := do
  match ← value.fields? .plain
      ["existence_probability", "classification", "kinematics", "shape"] with
  | [existence, hypotheses, kinematics, shape] =>
    let existence ← required float32? existence
    let hypotheses ← required (list? hypothesis?) hypotheses
    let (centroid, covariance, twist) ← required kinematics? kinematics
    let shape ← required shape? shape
    return ⟨existence, hypotheses, centroid, covariance, twist, shape⟩
  | _ => none

def detectionBatch? (value : Json) : Option (DetectionBatch Float Float32) := do
  match ← value.fields? .plain ["header", "objects"] with
  | [header, objects] => return ⟨← required header? header, ← required (list? detection?) objects⟩
  | _ => none

def odometry? (value : Json) : Option (Odometry Float) := do
  match ← value.fields? .plain ["header", "child_frame_id", "pose", "twist"] with
  | [header, childFrame, pose, twist] =>
    return ⟨← required header? header, ← required string? childFrame, ← required pose? pose,
      ← required twist? twist⟩
  | _ => none

def region? (value : Json) : Option (Region Float Float32) := do
  match ← value.fields? .plain ["classifications", "polygon"] with
  | [hypotheses, polygon] =>
    return ⟨← required (list? hypothesis?) hypotheses, ← required (list? vec2?) polygon⟩
  | _ => none

def regionBatch? (value : Json) : Option (RegionBatch Float Float32) := do
  match ← value.fields? .plain ["header", "rois"] with
  | [header, regions] => return ⟨← required header? header, ← required (list? region?) regions⟩
  | _ => none

def event? (value : Json) : Option (Event Float Float32) := do
  match ← case? value with
  | ("Detections", contents) =>
    match ← contents.fields? .plain ["detections", "odometry"] with
    | [batch, odometry] =>
      return .detections (← required detectionBatch? batch) (← required odometry? odometry)
    | _ => none
  | ("Rois", contents) =>
    match ← contents.fields? .plain ["rois", "tf_camera_from_track"] with
    | [batch, view] => return .regions (← required regionBatch? batch) (← required pose? view)
    | _ => none
  | _ => none

def parseEvent? (line : String) : Option (Event Float Float32) :=
  (Json.parse? line).bind event?

def intrinsics? (value : Json) : Option (Intrinsics Float) := do
  match ← value.fields? .plain ["width", "height", "fx", "fy", "ox", "oy"] with
  | [width, height, fx, fy, ox, oy] =>
    return ⟨← required float? width, ← required float? height, ← required float? fx,
      ← required float? fy, ← required float? ox, ← required float? oy⟩
  | _ => none

def objectGates? (value : Json) : Option (ObjectGates Float) := do
  let standard : ObjectGates Float := .standard
  match ← value.fields? .defaulted ["max_distance", "max_area_ratio", "gating_threshold"] with
  | [distance, ratio, threshold] =>
    return ⟨← withDefault standard.maxDistance float? distance,
      ← withDefault standard.maxAreaRatio float? ratio,
      ← withDefault standard.gatingThreshold float? threshold⟩
  | _ => none

def visionGates? (value : Json) : Option (VisionGates Float) := do
  let standard : VisionGates Float := .standard
  match ← value.fields? .defaulted ["intrinsics", "iou_threshold"] with
  | [intrinsics, threshold] =>
    return ⟨← withDefault standard.intrinsics intrinsics? intrinsics,
      ← withDefault standard.iouThreshold float? threshold⟩
  | _ => none

def policy? (value : Json) : Option CreationPolicy := do
  match ← caseName? value with
  | "LidarClusters" => some .everyDetection
  | "LidarClustersIfVision" => some .visionConfirmed
  | _ => none

def motionModel? (value : Json) : Option (MotionModel Float) := do
  match ← value.fields? .plain ["process_noise"] with
  | [processNoise] => return ⟨← required float? processNoise⟩
  | _ => none

def creation? (value : Json) : Option (CreationSettings Float) := do
  let standard : CreationSettings Float := .standard
  match ← value.fields? .defaulted ["policy", "default_variance", "noise_variance",
      "max_vision_lidar_timestamp_diff", "max_buffered_roi_batches", "vision_association",
      "kalman"] with
  | [policy, defaultVariance, noiseVariance, window, maxBatches, gates, model] =>
    let policy ← withDefault standard.policy policy? policy
    let defaultVariance ← withDefault standard.noise.defaultVariance float? defaultVariance
    let noiseVariance ← withDefault standard.noise.noiseVariance float? noiseVariance
    let window ← withDefault standard.window duration? window
    let maxBatches ← withDefault standard.maxBatches word? maxBatches
    let gates ← withDefault standard.gates visionGates? gates
    let model ← withDefault standard.noise.model motionModel? model
    return ⟨policy, ⟨model, defaultVariance, noiseVariance⟩, window, maxBatches, gates⟩
  | _ => none

def options? (value : Json) : Option (TrackerOptions Float) := do
  let standard : TrackerOptions Float := .standard
  match ← value.fields? .defaulted ["frame", "pruning_time_threshold", "pruning_ticks_threshold",
      "object_association_config", "vision_association_config", "track_creator_config"] with
  | [frame, time, ticks, objects, vision, creation] =>
    let frame ← withDefault standard.frame string? frame
    let time ← withDefault standard.pruningTime duration? time
    let ticks ← withDefault standard.pruningTicks word? ticks
    let objects ← withDefault standard.objectGates objectGates? objects
    let vision ← withDefault standard.visionGates visionGates? vision
    let creation ← withDefault standard.creation creation? creation
    return ⟨frame, time, ticks, objects, vision, creation⟩
  | _ => none

def parseOptions? (text : String) : Option (TrackerOptions Float) :=
  (Json.parse? text).bind options?

end Format

end TrackFusion
