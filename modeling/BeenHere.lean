import BeenHere.Anonymous
import BeenHere.App
import BeenHere.Celebrations
import BeenHere.Clients
import BeenHere.Coherence
import BeenHere.Consistency
import BeenHere.Convergence
import BeenHere.Copies
import BeenHere.Deletion
import BeenHere.Device
import BeenHere.Firebase
import BeenHere.Fixes
import BeenHere.Library.Dictionary
import BeenHere.Library.ObjectHeap
import BeenHere.Library.PartialRun
import BeenHere.Library.Replication
import BeenHere.Library.Traced
import BeenHere.Library.Updates
import BeenHere.ImageCache
import BeenHere.LoadedImages
import BeenHere.Loading
import BeenHere.Locator
import BeenHere.MyPlaces
import BeenHere.NamedImages
import BeenHere.Network
import BeenHere.Observers
import BeenHere.OneUser
import BeenHere.Opening
import BeenHere.Pages
import BeenHere.Place
import BeenHere.PlaceRecord
import BeenHere.PlacesMap
import BeenHere.Progress
import BeenHere.Provenance
import BeenHere.Radar
import BeenHere.Ratings
import BeenHere.Reports
import BeenHere.Rows
import BeenHere.Runtime
import BeenHere.Serial
import BeenHere.SingleUser
import BeenHere.StarControl
import BeenHere.StarTouches
import BeenHere.Stars
import BeenHere.Strip
import BeenHere.Tracking
import BeenHere.Traps
import BeenHere.Walks
